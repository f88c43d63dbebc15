import AffineLoops.MatrixCode.Basic
import Mathlib

/-!
Listings of matrix code can be read back. A listing is a sequence of words: the name of an instruction, the texts of
its operands, the name of the next instruction, and so on. Blanks, commas and line feeds stand between the words.
Neither they nor the indentation are needed for reading, since the name of an instruction says how many operands
follow. So the code is known from its listing, whether its loops are closed or not.

* `words_disassemble`: the words of a listing are those of its instructions, in order.
* `Legible`: operands whose texts are words that can be read. Both sorts of operands are.
* `assemble_disassemble`: what is read from a listing is the code that it lists.

Of the numbers it is only shown that they are words. That the text of a number reads as that number is
`Nat.toNat?_repr` and `Int.toInt?_repr`, and these come with no smaller part of the library than the whole.
-/

namespace AffineLoops

namespace MatrixCode

/-! ### Words -/

/-- The characters between words. -/
def separates (c : Char) : Bool := [' ', ',', '\n'].contains c

/-- The words of a text, in order. -/
def words (text : List Char) : List String :=
  ((text.splitOnP separates).filter (· ≠ [])).map String.ofList

/-- A text that is one word. -/
structure IsWord (text : String) : Prop where
  nonempty : text ≠ ""
  whole : ∀ c ∈ text.toList, separates c = false

/-- No word goes over a separator. -/
theorem words_append_cons (left right : List Char) {c : Char} (between : separates c = true) :
    words (left ++ c :: right) = words left ++ words right := by
  rw [words, List.splitOnP_append_cons left right between, List.filter_append, List.map_append]
  rfl

theorem words_cons (text : List Char) {c : Char} (between : separates c = true) : words (c :: text) = words text :=
  words_append_cons [] text between

theorem words_blanks (count : Nat) (text : List Char) : words (List.replicate count ' ' ++ text) = words text := by
  induction count with
  | zero => rfl
  | succ count ih => rw [List.replicate_succ, List.cons_append, words_cons _ rfl, ih]

theorem IsWord.words_eq {text : String} (word : IsWord text) : words text.toList = [text] := by
  rw [words, List.splitOnP_eq_singleton word.whole]
  simp [word.nonempty]

theorem IsWord.append {left right : String} (first : IsWord left) (second : IsWord right) : IsWord (left ++ right) where
  nonempty := by simp [first.nonempty]
  whole := by
    intro c member
    rw [String.toList_append, List.mem_append] at member
    exact member.elim (first.whole c) (second.whole c)

/-- Words with commas between them. -/
theorem words_intercalate {texts : List String} (each : ∀ text ∈ texts, IsWord text) :
    words (", ".intercalate texts).toList = texts := by
  induction texts with
  | nil => rfl
  | cons text rest ih =>
    have first := (each text (.head rest)).words_eq
    have others := ih fun text' member => each text' (.tail text member)
    cases rest with
    | nil => rw [String.intercalate_singleton, first]
    | cons next rest =>
      have separated : (", ".intercalate (text :: next :: rest)).toList =
          text.toList ++ ',' :: ' ' :: (", ".intercalate (next :: rest)).toList := by
        simp [String.intercalate_cons_cons]
      rw [separated, words_append_cons _ _ rfl, words_cons _ rfl, first, others]
      rfl

/-! ### Numbers -/

/-- The characters of numbers. -/
def numeric (c : Char) : Bool := c == '-' || c.isDigit

def isNumeral (text : String) : Bool := text.toList.all numeric

theorem separates_of_numeric {c : Char} (number : numeric c = true) : separates c = false := by
  have apart : ∀ c ∈ [' ', ',', '\n'], numeric c = false := by simp [numeric]
  cases between : separates c with
  | false => rfl
  | true => simp [apart c (List.contains_iff_mem.mp between)] at number

theorem numeric_of_mem_natRepr {n : Nat} {c : Char} (member : c ∈ n.repr.toList) : numeric c = true := by
  rw [Nat.toList_repr] at member
  have digit : c.isDigit = true := Nat.isDigit_of_mem_toDigits (by decide) (by decide) member
  simp [numeric, digit]

theorem numeric_of_mem_intRepr {n : Int} {c : Char} (member : c ∈ n.repr.toList) : numeric c = true := by
  cases n with
  | ofNat n => exact numeric_of_mem_natRepr member
  | negSucc n =>
    have signed : c = '-' ∨ c ∈ (n + 1).repr.toList := by simpa [Int.repr] using member
    rcases signed with rfl | digit
    · rfl
    · exact numeric_of_mem_natRepr digit

theorem isWord_natRepr (n : Nat) : IsWord n.repr where
  nonempty := Nat.repr_ne_empty
  whole _ member := separates_of_numeric (numeric_of_mem_natRepr member)

theorem isWord_intRepr (n : Int) : IsWord n.repr where
  nonempty := by cases n <;> simp [Int.repr, Nat.repr_ne_empty]
  whole _ member := separates_of_numeric (numeric_of_mem_intRepr member)

theorem isNumeral_intRepr (n : Int) : isNumeral n.repr = true :=
  List.all_eq_true.mpr fun _ member => numeric_of_mem_intRepr member

/-- The number after a label. -/
def numbered? (label text : String) : Option Nat :=
  (label.toList.isPrefixOf? text.toList).bind fun digits => (String.ofList digits).toNat?

theorem numbered?_append (label : String) (n : Nat) : numbered? label (label ++ n.repr) = some n := by
  have found : label.toList.isPrefixOf? (label ++ n.repr).toList = some n.repr.toList :=
    List.isPrefixOf?_eq_some_iff_append_eq.mpr (by simp)
  rw [numbered?, found, Option.bind_some, String.ofList_toList, Nat.toNat?_repr]

/-- Operands whose texts are words that can be read. -/
structure Legible (α : Type) [ToString α] (ofText? : String → Option α) : Prop where
  isWord (operand : α) : IsWord (toString operand)
  read (operand : α) : ofText? (toString operand) = some operand

end MatrixCode

/-! ### Operands -/

open MatrixCode

def Resolved.ofText? (text : String) : Option Resolved :=
  if isNumeral text then text.toInt?.map .value else (numbered? "var" text).map .var

theorem Resolved.legible : Legible Resolved Resolved.ofText? where
  isWord operand := by
    cases operand with
    | value n => exact isWord_intRepr n
    | var slot => exact IsWord.append ⟨by simp, by simp [separates]⟩ (isWord_natRepr slot)
  read operand := by
    cases operand with
    | value n =>
      show ofText? n.repr = _
      rw [ofText?, if_pos (isNumeral_intRepr n), Int.toInt?_repr]
      rfl
    | var slot =>
      show ofText? ("var" ++ slot.repr) = _
      have letters : isNumeral ("var" ++ slot.repr) ≠ true := by simp [isNumeral, numeric]
      rw [ofText?, if_neg letters, numbered?_append]
      rfl

/-- A resolved operand stands for itself in compiled code, with the same text. -/
def Resolved.toOperand : Resolved → Operand
  | .value n => .value n
  | .var slot => .var slot

def Param.ofText? : String → Option Param
  | "start" => some .start
  | "step" => some .step
  | "iters_count" => some .itersCount
  | _ => none

def Operand.ofText? (text : String) : Option Operand :=
  (Resolved.ofText? text).map Resolved.toOperand <|> (numbered? "const" text).map .const <|>
    (Param.ofText? text).map .param

theorem Operand.ofText?_toOperand (operand : Resolved) : ofText? (toString operand) = some operand.toOperand := by
  rw [ofText?, Resolved.legible.read]
  rfl

theorem Operand.legible : Legible Operand Operand.ofText? where
  isWord operand := by
    cases operand with
    | value n => exact Resolved.legible.isWord (.value n)
    | const index => exact IsWord.append ⟨by simp, by simp [separates]⟩ (isWord_natRepr index)
    | param p => cases p <;> exact ⟨by simp [toString, Param.text], by simp [toString, Param.text, separates]⟩
    | var slot => exact Resolved.legible.isWord (.var slot)
  read operand := by
    cases operand with
    | value n => exact ofText?_toOperand (.value n)
    | const index =>
      show ofText? ("const" ++ index.repr) = _
      have letters : isNumeral ("const" ++ index.repr) ≠ true := by simp [isNumeral, numeric]
      have other : numbered? "var" ("const" ++ index.repr) = none := by simp [numbered?, List.isPrefixOf?]
      rw [ofText?, Resolved.ofText?, if_neg letters, other, numbered?_append]
      rfl
    | param p => cases p <;> decide
    | var slot => exact ofText?_toOperand (.var slot)

/-! ### Code -/

/-- The words that list an instruction. -/
def Instr.words {α : Type} [ToString α] (instr : Instr α) : List String :=
  instr.mnemonic :: instr.operands.map toString

namespace MatrixCode

variable {α : Type}

/-- The code that a sequence of words names. -/
def ofWords? (operand? : String → Option α) : List String → Option (List (Instr α))
  | [] => some []
  | "MOV" :: dest :: src :: rest => do
    return .mov (← operand? dest) (← operand? src) :: (← ofWords? operand? rest)
  | "ADD" :: dest :: src :: rest => do
    return .add (← operand? dest) (← operand? src) :: (← ofWords? operand? rest)
  | "SUB" :: dest :: src :: rest => do
    return .sub (← operand? dest) (← operand? src) :: (← ofWords? operand? rest)
  | "MUL" :: dest :: src :: rest => do
    return .mul (← operand? dest) (← operand? src) :: (← ofWords? operand? rest)
  | "LOOP" :: count :: rest => do return .loop (← operand? count) :: (← ofWords? operand? rest)
  | "END" :: rest => do return .endLoop :: (← ofWords? operand? rest)
  | _ => none

/-- The code in a listing. -/
def assemble (operand? : String → Option α) (listing : String) : Option (List (Instr α)) :=
  ofWords? operand? (words listing.toList)

theorem toList_pushn (count : Nat) : ("".pushn ' ' count).toList = List.replicate count ' ' := by
  rw [String.pushn_eq_repeat_push]
  induction count with
  | zero => rfl
  | succ count ih => rw [Nat.repeat, String.toList_push, ih, List.replicate_succ']

section Legible

variable [ToString α] {operand? : String → Option α} (legible : Legible α operand?)

include legible

theorem ofWords?_words (code : List (Instr α)) : ofWords? operand? (code.flatMap Instr.words) = some code := by
  induction code with
  | nil => rfl
  | cons instr rest ih =>
    rw [List.flatMap_cons]
    cases instr <;> simp [Instr.words, Instr.mnemonic, Instr.operands, ofWords?, legible.read, ih]

theorem words_text (instr : Instr α) : words instr.text.toList = instr.words := by
  have name : IsWord instr.mnemonic := by
    cases instr <;> exact ⟨by simp [Instr.mnemonic], by simp [Instr.mnemonic, separates]⟩
  have texts : ∀ text ∈ instr.operands.map toString, IsWord text :=
    List.forall_mem_map.mpr fun operand _ => legible.isWord operand
  unfold Instr.text Instr.words
  split
  · rename_i none
    rw [none, name.words_eq, List.map_nil]
  · have blank : (instr.mnemonic ++ " " ++ ", ".intercalate (instr.operands.map toString)).toList =
        instr.mnemonic.toList ++ ' ' :: (", ".intercalate (instr.operands.map toString)).toList := by simp
    rw [blank, words_append_cons _ _ rfl, name.words_eq, words_intercalate texts]
    rfl

/-- The depth shows in blanks only, so it is left open: the words are the same at every depth. -/
theorem words_lines (depth : Nat) (code : List (Instr α)) :
    words (String.join ((lines depth code).map (· ++ "\n"))).toList = code.flatMap Instr.words := by
  induction code generalizing depth with
  | nil => rfl
  | cons instr rest ih =>
    have line : (String.join ((lines depth (instr :: rest)).map (· ++ "\n"))).toList =
        List.replicate (4 * instr.listedAt depth) ' ' ++ instr.text.toList ++
          '\n' :: (String.join ((lines (instr.depthAfter depth) rest).map (· ++ "\n"))).toList := by
      simp [lines, toList_pushn]
    rw [line, words_append_cons _ _ rfl, words_blanks, words_text legible, ih, List.flatMap_cons]

theorem words_disassemble (code : List (Instr α)) : words (disassemble code).toList = code.flatMap Instr.words :=
  words_lines legible 0 code

/-- What is read from a listing is the code that it lists. -/
theorem assemble_disassemble (code : List (Instr α)) : assemble operand? (disassemble code) = some code := by
  rw [assemble, words_disassemble legible, ofWords?_words legible]

theorem disassemble_injective : Function.Injective (disassemble : List (Instr α) → String) := by
  intro code code' same
  have read : some code = some code' := by
    rw [← assemble_disassemble legible code, same, assemble_disassemble legible]
  exact Option.some.inj read

end Legible

/-- Programs with the same listing are the same, as they are compiled and as they are run, at any length and with any
loops, closed or not. -/
theorem listing_unambiguous :
    (∀ code code' : List (Instr Operand), disassemble code = disassemble code' → code = code') ∧
      ∀ code code' : List (Instr Resolved), disassemble code = disassemble code' → code = code' := by
  constructor
  · intro code code' same
    exact disassemble_injective Operand.legible same
  · intro code code' same
    exact disassemble_injective Resolved.legible same

/-- An end without a loop, and a loop without an end. -/
def unclosed : List (Instr Operand) := [.endLoop, .loop (.param .itersCount), .mov (.var 10) (.value (-10))]

theorem unclosed_listing :
    disassemble unclosed = "END\nLOOP iters_count\n    MOV var10, -10\n" ∧
      (∀ code : List (Instr Operand),
        disassemble code = "END\nLOOP iters_count\n    MOV var10, -10\n" → code = unclosed) ∧
      ∀ code : List (Instr Resolved), disassemble code = "MUL var1, 2\n" → code = [.mul (.var 1) (.value 2)] := by
  have listed : disassemble unclosed = "END\nLOOP iters_count\n    MOV var10, -10\n" := by decide
  refine ⟨listed, ?_, ?_⟩
  · intro code same
    exact listing_unambiguous.1 code unclosed (same.trans listed.symm)
  · intro code same
    exact listing_unambiguous.2 code _ (same.trans (by decide))

end MatrixCode

end AffineLoops
