import Mathlib

/-! # script/script.h, script/script.cpp and script/names.cpp: scripts as bytes

A `CScript` is its byte string. `GetScriptOp` reads one opcode at a position
and, for a push, the data it pushes; a failed read still reports where the
position stopped, as the C++ iterator does. `CNameScript` picks a name prefix
(`OP_NAME_* args... OP_2DROP/OP_DROP/OP_NOP...`) apart from the address that
follows it. -/

namespace Namecoin.Script

/-- `valtype`, the element of a script stack. -/
abbrev valtype := List UInt8

abbrev CScript := List UInt8

def OP_0 : UInt8 := 0x00
def OP_PUSHDATA1 : UInt8 := 0x4c
def OP_PUSHDATA2 : UInt8 := 0x4d
def OP_PUSHDATA4 : UInt8 := 0x4e
def OP_1NEGATE : UInt8 := 0x4f
def OP_1 : UInt8 := 0x51
def OP_2 : UInt8 := 0x52
def OP_3 : UInt8 := 0x53
def OP_16 : UInt8 := 0x60
def OP_NOP : UInt8 := 0x61
def OP_RETURN : UInt8 := 0x6a
def OP_2DROP : UInt8 := 0x6d
def OP_DROP : UInt8 := 0x75
def OP_INVALIDOPCODE : UInt8 := 0xff

def OP_NAME_NEW : UInt8 := OP_1
def OP_NAME_FIRSTUPDATE : UInt8 := OP_2
def OP_NAME_UPDATE : UInt8 := OP_3

def MAX_SCRIPT_SIZE : Nat := 10000

/-- `ReadLE16` and `ReadLE32`: little-endian bytes as a number. -/
def readLE : List UInt8 → Nat
  | [] => 0
  | b :: bs => b.toNat + 256 * readLE bs

/-- The operand size of push opcode `opcode` and where its data starts, when
the length bytes after position `pc` are there. -/
def pushSize (script : CScript) (opcode : UInt8) (pc : Nat) : Option (Nat × Nat) :=
  if opcode < OP_PUSHDATA1 then some (opcode.toNat, pc)
  else if opcode = OP_PUSHDATA1 then
    if script.length - pc < 1 then none else some (readLE ((script.drop pc).take 1), pc + 1)
  else if opcode = OP_PUSHDATA2 then
    if script.length - pc < 2 then none else some (readLE ((script.drop pc).take 2), pc + 2)
  else if script.length - pc < 4 then none else some (readLE ((script.drop pc).take 4), pc + 4)

/-- `GetScriptOp (pc, end, opcodeRet, pvchRet)` at byte position `pc`: whether
it succeeded, the opcode (`OP_INVALIDOPCODE` on failure), the pushed data and
the position the iterator ends on. -/
def getScriptOp (script : CScript) (pc : Nat) : Bool × UInt8 × valtype × Nat :=
  if script.length ≤ pc then (false, OP_INVALIDOPCODE, [], pc)
  else
    let opcode := script.getD pc 0
    if opcode ≤ OP_PUSHDATA4 then
      match pushSize script opcode (pc + 1) with
      | none => (false, OP_INVALIDOPCODE, [], pc + 1)
      | some (nSize, start) =>
        if script.length - start < nSize then (false, OP_INVALIDOPCODE, [], start)
        else (true, opcode, (script.drop start).take nSize, start + nSize)
    else (true, opcode, [], pc + 1)

/-- `CScript::IsUnspendable`: such an output never enters the UTXO set. -/
def IsUnspendable (script : CScript) : Bool :=
  (0 < script.length && script.headD 0 == OP_RETURN) || decide (MAX_SCRIPT_SIZE < script.length)

/-- The `op` member of a `CNameScript`: `OP_NOP` when the script is no (valid)
name operation. -/
inductive NameOp where
  | OP_NOP
  | OP_NAME_NEW
  | OP_NAME_FIRSTUPDATE
  | OP_NAME_UPDATE
  deriving DecidableEq, Repr

structure CNameScript where
  op : NameOp
  address : CScript
  args : List valtype
  deriving DecidableEq, Repr

namespace CNameScript

/-- The argument loop of the constructor: push opcodes are collected until an
`OP_DROP`, `OP_2DROP` or `OP_NOP`, which it returns with the position after it;
`none` when a read fails or another opcode comes first. Each read consumes a
byte, so `script.length + 1` turns always suffice. -/
def readArgs (script : CScript) : Nat → Nat → List valtype → List valtype × Option (UInt8 × Nat)
  | 0, _, args => (args, none)
  | fuel + 1, pc, args =>
    let (ok, opcode, vch, pc) := getScriptOp script pc
    if !ok then (args, none)
    else if opcode = OP_DROP || opcode = OP_2DROP || opcode = OP_NOP then (args, some (opcode, pc))
    else if !(opcode ≤ OP_PUSHDATA4) then (args, none)
    else readArgs script fuel pc (args ++ [vch])

/-- `while (opcode == OP_DROP || opcode == OP_2DROP || opcode == OP_NOP)
if (!script.GetOp (pc, opcode)) break;`, returning where the iterator stops. -/
def skipDrops (script : CScript) : Nat → UInt8 → Nat → Nat
  | 0, _, pc => pc
  | fuel + 1, opcode, pc =>
    if opcode = OP_DROP || opcode = OP_2DROP || opcode = OP_NOP then
      let (ok, opcode, _, pc') := getScriptOp script pc
      if !ok then pc' else skipDrops script fuel opcode pc'
    else pc

/-- The name operation with argument count `n`, if `nameOp` opens one. -/
def nameOpOf (nameOp : UInt8) (n : Nat) : Option NameOp :=
  if nameOp = Script.OP_NAME_NEW then if n = 1 then some .OP_NAME_NEW else none
  else if nameOp = Script.OP_NAME_FIRSTUPDATE then if n = 3 then some .OP_NAME_FIRSTUPDATE else none
  else if nameOp = Script.OP_NAME_UPDATE then if n = 2 then some .OP_NAME_UPDATE else none
  else none

/-- `CNameScript (script)`. A script that is no name operation keeps `OP_NOP`
and the whole script as address. After the last drop the iterator steps one
byte back (`pc--`), onto the opcode that ended the skip. -/
def ofScript (script : CScript) : CNameScript :=
  let (ok, nameOp, _, pc) := getScriptOp script 0
  if !ok then ⟨.OP_NOP, script, []⟩
  else
    match readArgs script (script.length + 1) pc [] with
    | (args, none) => ⟨.OP_NOP, script, args⟩
    | (args, some (opcode, pc)) =>
      let pc := skipDrops script (script.length + 1) opcode pc - 1
      match nameOpOf nameOp args.length with
      | none => ⟨.OP_NOP, script, args⟩
      | some op => ⟨op, script.drop pc, args⟩

def isNameOp (s : CNameScript) : Bool := s.op != .OP_NOP

theorem isNameOp_eq_false {s : CNameScript} : s.isNameOp = false ↔ s.op = .OP_NOP := by
  simp [isNameOp]

/-- `isAnyUpdate`: `NAME_FIRSTUPDATE` or `NAME_UPDATE`. -/
def isAnyUpdate (s : CNameScript) : Bool :=
  s.op == .OP_NAME_FIRSTUPDATE || s.op == .OP_NAME_UPDATE

def getOpName (s : CNameScript) : valtype := s.args.getD 0 []

def getOpValue (s : CNameScript) : valtype :=
  if s.op = .OP_NAME_FIRSTUPDATE then s.args.getD 2 [] else s.args.getD 1 []

def getOpRand (s : CNameScript) : valtype := s.args.getD 1 []

def getOpHash (s : CNameScript) : valtype := s.args.getD 0 []

def getAddress (s : CNameScript) : CScript := s.address

end CNameScript

end Namecoin.Script
