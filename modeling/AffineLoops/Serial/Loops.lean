import AffineLoops.CompiledLoop.Basic
import AffineLoops.Serial.MatrixCode

/-!
Stored forms of loop bodies and compiled loops.
-/

namespace AffineLoops

/-! ### Bodies -/

def Scope.tag : Scope → String
  | .name => "Name"
  | .global => "Global"
  | .fast => "Fast"
  | .deref => "Deref"

instance : Stored Scope where
  encode scope := .text scope.tag
  decode := Tree.oneOf? Scope.all Scope.tag

instance : Stored Variable where
  encode v := .record [("scope", encode v.scope), ("name", .text v.name)]
  decode tree := do
    match ← tree.fields? ["scope", "name"] with
    | [scope, name] => return ⟨← decode scope, ← name.text?⟩
    | _ => none

def Opcode.tag : Opcode → String
  | .nop => "Nop"
  | .popTop => "PopTop"
  | .rotTwo => "RotTwo"
  | .rotThree => "RotThree"
  | .rotFour => "RotFour"
  | .dupTop => "DupTop"
  | .dupTopX => "DupTopX"
  | .unary op => "Unary" ++ op.tag
  | .binary op => "Binary" ++ op.tag
  | .inplace op => "Inplace" ++ op.tag
  | .loadConst => "LoadConst"
  | .load scope => "Load" ++ scope.tag
  | .store scope => "Store" ++ scope.tag
  | .setLineno => "SetLineno"
  | .compareOp => "CompareOp"
  | .jumpAbsolute => "JumpAbsolute"
  | .popJumpIfFalse => "PopJumpIfFalse"
  | .callFunction => "CallFunction"
  | .binarySubscr => "BinarySubscr"
  | .buildList => "BuildList"
  | .returnValue => "ReturnValue"

instance : Stored Opcode where
  encode opcode := .text opcode.tag
  decode := Tree.oneOf? Opcode.all Opcode.tag

instance : Stored Arg where
  encode
    | .none => .text "None"
    | .const value => .alternative "Const" (encode value)
    | .name text => .alternative "Name" (.text text)
    | .count n => .alternative "Count" (.ofNat n)
    | .line n => .alternative "Line" (.ofNat n)
  decode tree :=
    match tree.alternative? with
    | some ("None", none) | some ("None", some .null) => some .none
    | some ("Const", some data) => (decode data).map .const
    | some ("Name", some data) => data.text?.map .name
    | some ("Count", some data) => (data.nat? Tree.wordBound).map .count
    | some ("Line", some data) => (data.nat? Tree.narrowBound).map .line
    | _ => none

instance : Stored Instruction where
  encode instr := .record [("opcode", encode instr.opcode), ("arg", encode instr.arg)]
  decode tree := do
    match ← tree.fields? ["opcode", "arg"] with
    | [opcode, arg] => return ⟨← decode opcode, ← decode arg⟩
    | _ => none

/-! ### Compiled loops -/

instance : Stored ConstOp where
  encode
    | .push value => .alternative "Push" (encode value)
    | .load v => .alternative "LoadVar" (encode v)
    | .folded index => .alternative "LoadFolded" (.ofNat index)
    | .unary op => .alternative "Unary" (encode op)
    | .binary op => .alternative "Binary" (encode op)
  decode tree :=
    match tree.alternative? with
    | some ("Push", some data) => (decode data).map .push
    | some ("LoadVar", some data) => (decode data).map .load
    | some ("LoadFolded", some data) => (data.nat? Tree.wordBound).map .folded
    | some ("Unary", some data) => (decode data).map .unary
    | some ("Binary", some data) => (decode data).map .binary
    | _ => none

instance : Stored SlotKey where
  encode
    | .host v => .alternative "Host" (encode v)
    | .counter => .text "Counter"
    | .stack depth => .alternative "Stack" (.ofNat depth)
  decode tree :=
    match tree.alternative? with
    | some ("Host", some data) => (decode data).map .host
    | some ("Counter", none) | some ("Counter", some .null) => some .counter
    | some ("Stack", some data) => (data.nat? Tree.wordBound).map .stack
    | _ => none

instance : Stored Slot where
  encode slot := .record [("key", encode slot.key), ("write_back", encode slot.writeBack)]
  decode tree := do
    match ← tree.fields? ["key", "write_back"] with
    | [key, writeBack] => return ⟨← decode key, ← decode writeBack⟩
    | _ => none

def CounterUse.tag : CounterUse → String
  | .unused => "Unused"
  | .readOnly => "ReadOnly"
  | .mutated => "Mutated"

instance : Stored CounterUse where
  encode use := .text use.tag
  decode := Tree.oneOf? [.unused, .readOnly, .mutated] CounterUse.tag

instance : Stored CompiledLoop where
  encode loop := .record
    [("matcode", encode loop.code), ("slots", encode loop.slots), ("consts", encode loop.consts),
      ("counter", encode loop.counter), ("counter_status", encode loop.counterUse),
      ("store_counter", encode loop.storeCounter)]
  decode tree := do
    match ← tree.fields? ["matcode", "slots", "consts", "counter", "counter_status", "store_counter"] with
    | [code, slots, consts, counter, use, store] =>
      return ⟨← decode code, ← decode slots, ← decode consts, ← decode counter, ← decode use,
        ← decode store⟩
    | _ => none

end AffineLoops
