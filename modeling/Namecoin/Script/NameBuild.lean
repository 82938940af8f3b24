import Mathlib.Tactic.SplitIfs
import Namecoin.Script.Script

/-! # Building name scripts, and reading them back (script/names.cpp)

`buildNameNew`, `buildNameFirstupdate` and `buildNameUpdate` put the prefix
`GetPrefix` of a name operation in front of an address: the operation's
opcode, its arguments pushed with `CScript <<`, and two or one drops.
`CNameScript` reads the operation and its arguments back from every such
script (`ofScript_addNamePrefix`). The address it reads is not always the one
that was built in: the loop over the drops reads on into the address, past its
leading drops and its first operation, and `pc--` then steps back one byte.
The address comes back exactly when that loop stops one byte into it
(`addressEnd addr = 1`): an empty address comes back as the last drop of the
prefix, and a P2PK address as the last byte of its key and `OP_CHECKSIG`. -/

namespace Namecoin.Script

/-! ## Pushes -/

/-- `WriteLE16` and `WriteLE32`: the low `k` bytes of `n`, least significant first. -/
def writeLE : Nat → Nat → List UInt8
  | 0, _ => []
  | k + 1, n => (n % 256).toUInt8 :: writeLE k (n / 256)

/-- `CScript::AppendDataSize`, which takes the size as a `uint32_t`. -/
def appendDataSize (size : Nat) : CScript :=
  let size := size % 2 ^ 32
  if size < OP_PUSHDATA1.toNat then [size.toUInt8]
  else if size ≤ 0xff then [OP_PUSHDATA1, size.toUInt8]
  else if size ≤ 0xffff then OP_PUSHDATA2 :: writeLE 2 size
  else OP_PUSHDATA4 :: writeLE 4 size

/-- `CScript << b` for a byte vector `b`. -/
def pushData (b : valtype) : CScript := appendDataSize b.length ++ b

/-- The pushes of a list of arguments, one after the other. -/
def pushAll (args : List valtype) : CScript := (args.map pushData).flatten

@[simp] theorem pushAll_nil : pushAll [] = [] := rfl

@[simp] theorem pushAll_cons (a : valtype) (args : List valtype) :
    pushAll (a :: args) = pushData a ++ pushAll args := rfl

@[simp] theorem length_writeLE (k n : Nat) : (writeLE k n).length = k := by
  induction k generalizing n with
  | zero => rfl
  | succ k ih => simp [writeLE, ih]

theorem readLE_writeLE (k n : Nat) : readLE (writeLE k n) = n % 256 ^ k := by
  induction k generalizing n with
  | zero => simp [writeLE, readLE, Nat.mod_one]
  | succ k ih =>
    simp only [writeLE, readLE, ih, Nat.pow_succ']
    rw [Nat.mod_mul]
    simp

theorem readLE_lt : ∀ bs : List UInt8, readLE bs < 256 ^ bs.length
  | [] => by simp [readLE]
  | b :: bs => by
    have hb := b.toNat_lt
    have ih := readLE_lt bs
    simp only [readLE, List.length_cons, Nat.pow_succ']
    omega

/-- A push opens with a push opcode. -/
theorem pushData_headD_le (v : valtype) : (pushData v).headD 0 ≤ OP_PUSHDATA4 := by
  unfold pushData appendDataSize
  generalize v.length % 2 ^ 32 = n
  dsimp only
  split_ifs with h1
  · have h76 : OP_PUSHDATA1.toNat = 76 := rfl
    simp [UInt8.le_iff_toNat_le, OP_PUSHDATA4]
    omega
  all_goals
    simp only [List.cons_append, List.headD_cons]
    decide

theorem length_le_pushAll : ∀ args : List valtype, args.length ≤ (pushAll args).length
  | [] => Nat.le_refl 0
  | a :: args => by
    have hpos : 0 < (pushData a).length := by
      unfold pushData appendDataSize
      dsimp only
      split_ifs <;> simp
    have := length_le_pushAll args
    simp only [pushAll_cons, List.length_append, List.length_cons]
    omega

/-! ## Reading at an offset -/

/-- Reading at `k + i` reads the script from `k` on at `i`. -/
theorem pushSize_drop (script : CScript) (opcode : UInt8) (k i : Nat) :
    pushSize script opcode (k + i) =
      (pushSize (script.drop k) opcode i).map (fun p => (p.1, k + p.2)) := by
  simp only [pushSize, List.length_drop, Nat.sub_sub, List.drop_drop]
  split_ifs <;> simp [Nat.add_assoc]

theorem getScriptOp_drop (script : CScript) (k i : Nat) :
    getScriptOp script (k + i) =
      let r := getScriptOp (script.drop k) i
      (r.1, r.2.1, r.2.2.1, k + r.2.2.2) := by
  have hget : (script.drop k).getD i 0 = script.getD (k + i) 0 := by
    simp [List.getD_eq_getElem?_getD, List.getElem?_drop]
  by_cases hlen : script.length ≤ k + i
  · have hlen' : (script.drop k).length ≤ i := by
      rw [List.length_drop]
      omega
    simp only [getScriptOp, hlen, hlen', if_true]
  · have hlen' : ¬ (script.drop k).length ≤ i := by
      rw [List.length_drop]
      omega
    simp only [getScriptOp, hlen, hlen', if_false, hget]
    rw [show k + i + 1 = k + (i + 1) by omega, pushSize_drop]
    split_ifs
    · cases pushSize (script.drop k) (script.getD (k + i) 0) (i + 1) with
      | none => simp
      | some p =>
        obtain ⟨n, j⟩ := p
        simp only [Option.map_some, List.length_drop, List.drop_drop, Nat.sub_sub]
        split_ifs <;> simp [Nat.add_assoc]
    · simp

/-- Reading at `pc` reads what the script holds from `pc` on. -/
theorem getScriptOp_of_drop {script s : CScript} {pc : Nat} (h : script.drop pc = s) :
    getScriptOp script pc =
      let r := getScriptOp s 0
      (r.1, r.2.1, r.2.2.1, pc + r.2.2.2) := by
  simpa [h] using getScriptOp_drop script pc 0

/-- An opcode that pushes nothing is read as itself. -/
theorem getScriptOp_opcode {op : UInt8} (hop : OP_PUSHDATA4 < op) (rest : CScript) :
    getScriptOp (op :: rest) 0 = (true, op, [], 1) := by
  have hle : ¬ op ≤ OP_PUSHDATA4 := UInt8.not_le.mpr hop
  simp [getScriptOp, hle]

/-- Reading a push whose length bytes `lenBytes` announce the `v.length` bytes of `v`. -/
theorem getScriptOp_push {op : UInt8} {lenBytes v rest : List UInt8} (hop : op ≤ OP_PUSHDATA4)
    (hsize : pushSize (op :: (lenBytes ++ v ++ rest)) op 1 = some (v.length, 1 + lenBytes.length)) :
    getScriptOp (op :: (lenBytes ++ v ++ rest)) 0 = (true, op, v, 1 + lenBytes.length + v.length) := by
  have hlen : ¬ (op :: (lenBytes ++ v ++ rest)).length ≤ 0 := by simp
  have hfit : ¬ (op :: (lenBytes ++ v ++ rest)).length - (1 + lenBytes.length) < v.length := by
    simp only [List.length_cons, List.length_append]
    omega
  have hdata : ((op :: (lenBytes ++ v ++ rest)).drop (1 + lenBytes.length)).take v.length = v := by
    rw [Nat.add_comm, ← List.drop_drop]
    simp
  simp only [getScriptOp, hlen, if_false, List.getD_cons_zero, hop, if_true, hsize, hfit, hdata]

/-- `GetScriptOp` reads back what `CScript <<` pushed. -/
theorem getScriptOp_pushData {v : valtype} (hv : v.length < 2 ^ 32) (rest : CScript) :
    getScriptOp (pushData v ++ rest) 0 =
      (true, (pushData v).headD 0, v, (pushData v).length) := by
  have hmod : v.length % 2 ^ 32 = v.length := Nat.mod_eq_of_lt hv
  unfold pushData appendDataSize
  simp only [hmod]
  split_ifs with h1 h2 h3
  · -- the size is the opcode
    have hsmall : v.length < 76 := by simpa [OP_PUSHDATA1] using h1
    have hop : v.length.toUInt8 ≤ OP_PUSHDATA4 := by
      simp [UInt8.le_iff_toNat_le, OP_PUSHDATA4]
      omega
    have hsize : pushSize (v.length.toUInt8 :: ([] ++ v ++ rest)) v.length.toUInt8 1 =
        some (v.length, 1 + ([] : List UInt8).length) := by
      have hlt : v.length.toUInt8 < OP_PUSHDATA1 := by
        simp [UInt8.lt_iff_toNat_lt, OP_PUSHDATA1]
        omega
      simp [pushSize, hlt]
      omega
    simpa [Nat.add_comm] using getScriptOp_push hop hsize
  · -- one length byte after OP_PUSHDATA1
    have hsize : pushSize (OP_PUSHDATA1 :: ([v.length.toUInt8] ++ v ++ rest)) OP_PUSHDATA1 1 =
        some (v.length, 1 + [v.length.toUInt8].length) := by
      simp [pushSize, readLE]
      omega
    simpa [Nat.add_comm, Nat.add_left_comm] using getScriptOp_push (by decide) hsize
  · -- two length bytes after OP_PUSHDATA2
    have hsize : pushSize (OP_PUSHDATA2 :: (writeLE 2 v.length ++ v ++ rest)) OP_PUSHDATA2 1 =
        some (v.length, 1 + (writeLE 2 v.length).length) := by
      simp [pushSize, OP_PUSHDATA1, OP_PUSHDATA2, readLE_writeLE]
      omega
    simpa [Nat.add_comm, Nat.add_left_comm] using getScriptOp_push (by decide) hsize
  · -- four length bytes after OP_PUSHDATA4
    have hsize : pushSize (OP_PUSHDATA4 :: (writeLE 4 v.length ++ v ++ rest)) OP_PUSHDATA4 1 =
        some (v.length, 1 + (writeLE 4 v.length).length) := by
      simp [pushSize, OP_PUSHDATA1, OP_PUSHDATA2, OP_PUSHDATA4, readLE_writeLE]
      omega
    simpa [Nat.add_comm, Nat.add_left_comm] using getScriptOp_push (by decide) hsize

namespace CNameScript

/-! ## Building -/

/-- `CNameScript::GetPrefix`: the operation, its arguments and the drops that
take them off the stack again. -/
def GetPrefix (s : CNameScript) : CScript :=
  match s.op with
  | .OP_NAME_NEW => [OP_NAME_NEW] ++ pushData s.getOpHash ++ [OP_2DROP]
  | .OP_NAME_FIRSTUPDATE =>
    [OP_NAME_FIRSTUPDATE] ++ pushData s.getOpName ++ pushData s.getOpRand ++
      pushData s.getOpValue ++ [OP_2DROP, OP_2DROP]
  | .OP_NAME_UPDATE =>
    [OP_NAME_UPDATE] ++ pushData s.getOpName ++ pushData s.getOpValue ++ [OP_2DROP, OP_DROP]
  | .OP_NOP => []

/-- `CNameScript::AddNamePrefix`. -/
def AddNamePrefix (addr pre : CScript) : CScript := pre ++ addr

/-- `CNameScript::buildNameNew`; the hash function is a parameter of the model. -/
def buildNameNew (Hash160 : valtype → valtype) (addr : CScript) (name rand : valtype) : CScript :=
  AddNamePrefix addr (GetPrefix ⟨.OP_NAME_NEW, [], [Hash160 (rand ++ name)]⟩)

def buildNameFirstupdate (addr : CScript) (name value rand : valtype) : CScript :=
  AddNamePrefix addr (GetPrefix ⟨.OP_NAME_FIRSTUPDATE, [], [name, rand, value]⟩)

def buildNameUpdate (addr : CScript) (name value : valtype) : CScript :=
  AddNamePrefix addr (GetPrefix ⟨.OP_NAME_UPDATE, [], [name, value]⟩)

/-! ## The loops of the constructor -/

/-- The opcodes that end the arguments and that the drop loop skips. -/
def isDropOp (opcode : UInt8) : Bool := opcode = OP_DROP || opcode = OP_2DROP || opcode = OP_NOP

theorem isDropOp_of_le {opcode : UInt8} (h : opcode ≤ OP_PUSHDATA4) : isDropOp opcode = false := by
  simp only [isDropOp, Bool.or_eq_false_iff, decide_eq_false_iff_not]
  refine ⟨⟨?_, ?_⟩, ?_⟩ <;> (rintro rfl; revert h; decide)

theorem lt_of_isDropOp {opcode : UInt8} (h : isDropOp opcode = true) : OP_PUSHDATA4 < opcode := by
  simp only [isDropOp, Bool.or_eq_true, decide_eq_true_eq] at h
  rcases h with (rfl | rfl) | rfl <;> decide

theorem readArgs_succ (script : CScript) (fuel pc : Nat) (args : List valtype) :
    readArgs script (fuel + 1) pc args =
      match getScriptOp script pc with
      | (ok, opcode, vch, pc) =>
        if !ok then (args, none)
        else if isDropOp opcode then (args, some (opcode, pc))
        else if !(opcode ≤ OP_PUSHDATA4) then (args, none)
        else readArgs script fuel pc (args ++ [vch]) := rfl

@[simp] theorem skipDrops_zero (script : CScript) (opcode : UInt8) (pc : Nat) :
    skipDrops script 0 opcode pc = pc := rfl

theorem skipDrops_succ (script : CScript) (fuel : Nat) (opcode : UInt8) (pc : Nat) :
    skipDrops script (fuel + 1) opcode pc =
      if isDropOp opcode then
        match getScriptOp script pc with
        | (ok, opcode, _, pc') => if !ok then pc' else skipDrops script fuel opcode pc'
      else pc := rfl

/-- The argument loop reads a pushed argument and goes on after it. -/
theorem readArgs_pushData {script rest : CScript} {pc fuel : Nat} {v : valtype}
    (h : script.drop pc = pushData v ++ rest) (hv : v.length < 2 ^ 32) (args : List valtype) :
    readArgs script (fuel + 1) pc args =
      readArgs script fuel (pc + (pushData v).length) (args ++ [v]) := by
  have hle := pushData_headD_le v
  rw [readArgs_succ, getScriptOp_of_drop h, getScriptOp_pushData hv]
  simp only [Bool.not_true, Bool.false_eq_true, if_false, isDropOp_of_le hle, hle, decide_true]

/-- The argument loop reads the pushes of `args` in turn. -/
theorem readArgs_pushAll {script rest : CScript} :
    ∀ {args : List valtype} {pc : Nat} (fuel : Nat) (acc : List valtype),
      script.drop pc = pushAll args ++ rest → (∀ a ∈ args, a.length < 2 ^ 32) →
      readArgs script (fuel + args.length) pc acc =
        readArgs script fuel (pc + (pushAll args).length) (acc ++ args)
  | [], pc, fuel, acc, _, _ => by simp
  | a :: args, pc, fuel, acc, h, hargs => by
    have ha : script.drop pc = pushData a ++ (pushAll args ++ rest) := by
      rw [h, pushAll_cons, List.append_assoc]
    have hrest : script.drop (pc + (pushData a).length) = pushAll args ++ rest := by
      rw [← List.drop_drop, ha, List.drop_left]
    rw [List.length_cons, ← Nat.add_assoc, readArgs_pushData ha (hargs a List.mem_cons_self),
      readArgs_pushAll fuel (acc ++ [a]) hrest (fun b hb => hargs b (List.mem_cons_of_mem a hb))]
    simp [Nat.add_assoc]

/-- A drop ends the argument loop. -/
theorem readArgs_drop {script rest : CScript} {pc fuel : Nat} {op : UInt8}
    (h : script.drop pc = op :: rest) (hop : isDropOp op = true) (args : List valtype) :
    readArgs script (fuel + 1) pc args = (args, some (op, pc + 1)) := by
  rw [readArgs_succ, getScriptOp_of_drop h, getScriptOp_opcode (lt_of_isDropOp hop)]
  simp [hop]

/-- Only whether the opcode in hand is a drop matters to the drop loop. -/
theorem skipDrops_of_isDropOp (script : CScript) (fuel : Nat) {op : UInt8} (hop : isDropOp op = true)
    (pc : Nat) : skipDrops script fuel op pc = skipDrops script fuel OP_DROP pc := by
  cases fuel with
  | zero => rfl
  | succ fuel => simp only [skipDrops_succ, hop, show isDropOp OP_DROP = true by decide, if_true]

/-- The drop loop reads the drops `ds` in turn. -/
theorem skipDrops_drops {script rest : CScript} :
    ∀ {ds : List UInt8} {op : UInt8} {pc : Nat} (fuel : Nat), isDropOp op = true →
      (∀ d ∈ ds, isDropOp d = true) → script.drop pc = ds ++ rest →
      skipDrops script (fuel + ds.length) op pc = skipDrops script fuel OP_DROP (pc + ds.length)
  | [], op, pc, fuel, hop, _, _ => skipDrops_of_isDropOp script fuel hop pc
  | d :: ds, op, pc, fuel, hop, hds, h => by
    have hd := hds d List.mem_cons_self
    have h' : script.drop pc = d :: (ds ++ rest) := h
    have hrest : script.drop (pc + 1) = ds ++ rest := by
      rw [← List.drop_drop, h']
      rfl
    rw [List.length_cons, ← Nat.add_assoc, skipDrops_succ, if_pos hop, getScriptOp_of_drop h',
      getScriptOp_opcode (lt_of_isDropOp hd)]
    simp only [Bool.not_true, Bool.false_eq_true, if_false]
    rw [skipDrops_drops fuel hd (fun d' hd' => hds d' (List.mem_cons_of_mem d hd')) hrest]
    simp [Nat.add_assoc, Nat.add_comm 1]

/-- The drop loop at `k + i` runs on the script from `k` on. -/
theorem skipDrops_drop (script : CScript) (k : Nat) :
    ∀ (fuel : Nat) (op : UInt8) (i : Nat),
      skipDrops script fuel op (k + i) = k + skipDrops (script.drop k) fuel op i
  | 0, _, _ => rfl
  | fuel + 1, op, i => by
    rw [skipDrops_succ, skipDrops_succ, getScriptOp_drop]
    split
    · dsimp only
      split
      · rfl
      · exact skipDrops_drop script k fuel _ _
    · rfl

/-- A read past the end fails where it stands. -/
theorem getScriptOp_of_length_le {script : CScript} {pc : Nat} (h : script.length ≤ pc) :
    getScriptOp script pc = (false, OP_INVALIDOPCODE, [], pc) := by
  simp [getScriptOp, h]

/-- The data of a push starts after its opcode and has fewer than `2 ^ 32` bytes. -/
theorem pushSize_some {script : CScript} {opcode : UInt8} {pc n start : Nat}
    (h : pushSize script opcode pc = some (n, start)) : pc ≤ start ∧ n < 2 ^ 32 := by
  unfold pushSize at h
  have hlt : ∀ k, k ≤ 4 → readLE ((script.drop pc).take k) < 2 ^ 32 := fun k hk =>
    calc readLE ((script.drop pc).take k) < 256 ^ ((script.drop pc).take k).length := readLE_lt _
      _ ≤ 256 ^ 4 := Nat.pow_le_pow_right (by omega) (Nat.le_trans (List.length_take_le _ _) hk)
      _ = 2 ^ 32 := rfl
  split_ifs at h <;> cases h
  · exact ⟨Nat.le_refl _, by have := opcode.toNat_lt; omega⟩
  all_goals exact ⟨by omega, hlt _ (by omega)⟩

/-- A read that succeeds stands inside the script and moves forward. -/
theorem getScriptOp_advance {script : CScript} {pc : Nat} (h : (getScriptOp script pc).1 = true) :
    pc < script.length ∧ pc < (getScriptOp script pc).2.2.2 := by
  by_cases hlen : script.length ≤ pc
  · rw [getScriptOp_of_length_le hlen] at h
    cases h
  refine ⟨by omega, ?_⟩
  simp only [getScriptOp, hlen, if_false] at h ⊢
  split_ifs at h ⊢
  · cases hps : pushSize script (script.getD pc 0) (pc + 1) with
    | none =>
      rw [hps] at h
      cases h
    | some p =>
      obtain ⟨n, start⟩ := p
      have := (pushSize_some hps).1
      simp only [hps] at h ⊢
      -- a failed read was ruled out by `h`
      split_ifs at h ⊢
      show pc < start + n
      omega
  · show pc < pc + 1
    omega

/-- More fuel than bytes left does not change where the drop loop stops. -/
theorem skipDrops_fuel_succ (script : CScript) :
    ∀ (fuel : Nat) (op : UInt8) (pc : Nat), script.length + 1 - pc ≤ fuel →
      skipDrops script (fuel + 1) op pc = skipDrops script fuel op pc
  | 0, op, pc, h => by
    -- the loop stands at the end, where the read fails
    rw [skipDrops_succ, getScriptOp_of_length_le (by omega)]
    split <;> rfl
  | fuel + 1, op, pc, h => by
    rw [skipDrops_succ, skipDrops_succ script fuel]
    split
    · rcases hread : getScriptOp script pc with ⟨ok, opcode, vch, pc'⟩
      dsimp only
      cases ok with
      | false => rfl
      | true =>
        have hadv := getScriptOp_advance (show (getScriptOp script pc).1 = true by rw [hread])
        rw [hread] at hadv
        exact skipDrops_fuel_succ script fuel opcode pc' (by dsimp only at hadv; omega)
    · rfl

theorem skipDrops_fuel_le {script : CScript} {op : UInt8} {pc fuel fuel' : Nat}
    (h : script.length + 1 - pc ≤ fuel) (hle : fuel ≤ fuel') :
    skipDrops script fuel' op pc = skipDrops script fuel op pc := by
  induction hle with
  | refl => rfl
  | @step m hm ih =>
    have hm' : fuel ≤ m := hm
    rw [skipDrops_fuel_succ script m op pc (by omega), ih]

/-! ## Reading a built script back -/

/-- Where the drop loop stops when it reads on into `addr` after a prefix: one
byte past the first operation of `addr` that is no drop, or where a read fails. -/
def addressEnd (addr : CScript) : Nat := skipDrops addr (addr.length + 1) OP_DROP 0

/-- The last drop of a prefix, followed by the address. -/
theorem drop_length_cons_append (d : UInt8) (ds addr : List UInt8) :
    ((d :: ds) ++ addr).drop ds.length = (d :: ds).getLast (List.cons_ne_nil d ds) :: addr := by
  induction ds generalizing d with
  | nil => rfl
  | cons e es ih => rw [List.getLast_cons_cons, ← ih e]; rfl

/-- `CNameScript` on a prefix of a push opcode `nameOp`, pushed arguments and
drops, followed by any address: the operation and the arguments come back, and
the address is read from the last drop on, `addressEnd addr` bytes in. -/
theorem ofScript_namePrefix {nameOp d : UInt8} {ds : List UInt8} {args : List valtype}
    {op : NameOp} (hop : OP_PUSHDATA4 < nameOp) (hargs : ∀ a ∈ args, a.length < 2 ^ 32)
    (hname : nameOpOf nameOp args.length = some op)
    (hd : isDropOp d = true) (hds : ∀ x ∈ ds, isDropOp x = true) (addr : CScript) :
    ofScript (nameOp :: (pushAll args ++ (d :: ds) ++ addr)) =
      ⟨op, ((d :: ds).getLast (List.cons_ne_nil d ds) :: addr).drop (addressEnd addr), args⟩ := by
  -- the arguments start at 1, the first drop at `q`, the address at `q + 1 + ds.length`
  generalize hscript : nameOp :: (pushAll args ++ (d :: ds) ++ addr) = script
  have hq : script.drop (1 + (pushAll args).length) = (d :: ds) ++ addr := by
    rw [← hscript, ← List.drop_drop, List.drop_one, List.tail_cons, List.append_assoc, List.drop_left]
  have hlen : script.length = 1 + (pushAll args).length + (ds.length + 1) + addr.length := by
    rw [← hscript]
    simp only [List.length_cons, List.length_append]
    omega
  have hread : readArgs script (script.length + 1) 1 [] =
      (args, some (d, 1 + (pushAll args).length + 1)) := by
    have hpush : script.drop 1 = pushAll args ++ ((d :: ds) ++ addr) := by
      rw [← hscript, List.drop_one, List.tail_cons, List.append_assoc]
    obtain ⟨f, hf⟩ : ∃ f, script.length + 1 = f + 1 + args.length :=
      ⟨script.length - args.length, by have := length_le_pushAll args; omega⟩
    rw [hf, readArgs_pushAll (f + 1) [] hpush hargs, readArgs_drop hq hd, List.nil_append]
  have hskip : skipDrops script (script.length + 1) d (1 + (pushAll args).length + 1) =
      1 + (pushAll args).length + 1 + ds.length + addressEnd addr := by
    have hds' : script.drop (1 + (pushAll args).length + 1) = ds ++ addr := by
      rw [← List.drop_drop, hq]
      rfl
    have haddr : script.drop (1 + (pushAll args).length + 1 + ds.length) = addr := by
      rw [← List.drop_drop, hds', List.drop_left]
    obtain ⟨f, hf⟩ : ∃ f, script.length + 1 = f + ds.length :=
      ⟨script.length + 1 - ds.length, by omega⟩
    have hend := skipDrops_drop script (1 + (pushAll args).length + 1 + ds.length) f OP_DROP 0
    rw [Nat.add_zero, haddr,
      @skipDrops_fuel_le addr OP_DROP 0 (addr.length + 1) f (Nat.le_refl _) (by omega)] at hend
    rw [hf, skipDrops_drops f hd hds hds', hend]
    rfl
  have haddr : script.drop (1 + (pushAll args).length + 1 + ds.length + addressEnd addr - 1) =
      ((d :: ds).getLast (List.cons_ne_nil d ds) :: addr).drop (addressEnd addr) := by
    rw [show 1 + (pushAll args).length + 1 + ds.length + addressEnd addr - 1 =
        1 + (pushAll args).length + ds.length + addressEnd addr by omega,
      ← List.drop_drop, ← List.drop_drop, hq, drop_length_cons_append]
  have h0 : getScriptOp script 0 = (true, nameOp, [], 1) := by
    rw [← hscript]
    exact getScriptOp_opcode hop _
  unfold ofScript
  rw [h0]
  simp only [Bool.not_true, Bool.false_eq_true, if_false]
  rw [hread]
  dsimp only
  rw [hskip, hname, haddr]

theorem nameOpOf_eq_some {nameOp : UInt8} {n : Nat} {op : NameOp} (h : nameOpOf nameOp n = some op) :
    (nameOp = OP_NAME_NEW ∧ n = 1 ∧ op = .OP_NAME_NEW) ∨
      (nameOp = OP_NAME_FIRSTUPDATE ∧ n = 3 ∧ op = .OP_NAME_FIRSTUPDATE) ∨
      (nameOp = OP_NAME_UPDATE ∧ n = 2 ∧ op = .OP_NAME_UPDATE) := by
  unfold nameOpOf at h
  split_ifs at h <;> cases h <;> simp_all

/-- The drop a prefix of `op` ends with. -/
def lastDrop : NameOp → UInt8
  | .OP_NAME_UPDATE => OP_DROP
  | _ => OP_2DROP

/-- `CNameScript` on any address after the prefix of an operation with the right
number of arguments: the operation and its arguments come back, and the address
is read from the last drop of the prefix on, `addressEnd addr` bytes in. -/
theorem ofScript_addNamePrefix {c : CNameScript} {nameOp : UInt8}
    (hc : nameOpOf nameOp c.args.length = some c.op) (hargs : ∀ a ∈ c.args, a.length < 2 ^ 32)
    (addr : CScript) :
    ofScript (AddNamePrefix addr (GetPrefix c)) =
      ⟨c.op, (lastDrop c.op :: addr).drop (addressEnd addr), c.args⟩ := by
  obtain ⟨op, address, args⟩ := c
  have h2drop : isDropOp OP_2DROP = true := by decide
  rcases nameOpOf_eq_some hc with ⟨-, hn, rfl⟩ | ⟨-, hn, rfl⟩ | ⟨-, hn, rfl⟩
  · -- NAME_NEW: the hash, then one drop
    obtain ⟨h, rfl⟩ := List.length_eq_one_iff.mp hn
    have hscript : AddNamePrefix addr (GetPrefix ⟨.OP_NAME_NEW, address, [h]⟩) =
        OP_NAME_NEW :: (pushAll [h] ++ [OP_2DROP] ++ addr) := by
      simp [AddNamePrefix, GetPrefix, getOpHash]
    rw [hscript, ofScript_namePrefix (by decide) hargs rfl h2drop (by simp) addr]
    rfl
  · -- NAME_FIRSTUPDATE: name, rand and value, then two drops
    match args, hn with
    | [name, rand, value], _ =>
      have hscript : AddNamePrefix addr (GetPrefix ⟨.OP_NAME_FIRSTUPDATE, address, [name, rand, value]⟩) =
          OP_NAME_FIRSTUPDATE :: (pushAll [name, rand, value] ++ [OP_2DROP, OP_2DROP] ++ addr) := by
        simp [AddNamePrefix, GetPrefix, getOpName, getOpRand, getOpValue]
      rw [hscript, ofScript_namePrefix (by decide) hargs rfl h2drop (by simp [h2drop]) addr]
      rfl
  · -- NAME_UPDATE: name and value, then `OP_2DROP OP_DROP`
    match args, hn with
    | [name, value], _ =>
      have hscript : AddNamePrefix addr (GetPrefix ⟨.OP_NAME_UPDATE, address, [name, value]⟩) =
          OP_NAME_UPDATE :: (pushAll [name, value] ++ [OP_2DROP, OP_DROP] ++ addr) := by
        simp [AddNamePrefix, GetPrefix, getOpName, getOpValue]
      have hdrop : ∀ x ∈ [OP_DROP], isDropOp x = true := fun x hx => by
        rw [List.mem_singleton.mp hx]
        decide
      rw [hscript, ofScript_namePrefix (by decide) hargs rfl h2drop hdrop addr]
      rfl

/-- The address read back is the one built in exactly when the drop loop stops
one byte into it. -/
theorem drop_addressEnd_eq_iff (last : UInt8) (addr : CScript) :
    (last :: addr).drop (addressEnd addr) = addr ↔ addressEnd addr = 1 := by
  constructor
  · intro h
    have hlen := congrArg List.length h
    rcases hk : addressEnd addr with _ | _ | k
    · rw [hk] at hlen
      simp at hlen
    · rfl
    · -- dropping two or more bytes keeps the address only if it is empty, where the loop stops at 0
      rw [hk, List.drop_succ_cons, List.length_drop] at hlen
      have hnil : addr = [] := List.eq_nil_of_length_eq_zero (by omega)
      subst hnil
      cases hk
  · intro h
    rw [h]
    rfl

/-- Pushed data has fewer than `2 ^ 32` bytes. -/
theorem getScriptOp_data_lt (script : CScript) (pc : Nat) :
    (getScriptOp script pc).2.2.1.length < 2 ^ 32 := by
  by_cases hlen : script.length ≤ pc
  · rw [getScriptOp_of_length_le hlen]
    exact Nat.two_pow_pos 32
  simp only [getScriptOp, hlen, if_false]
  split_ifs
  · cases hps : pushSize script (script.getD pc 0) (pc + 1) with
    | none => exact Nat.two_pow_pos 32
    | some p =>
      obtain ⟨n, start⟩ := p
      have hn := (pushSize_some hps).2
      dsimp only
      split_ifs
      · exact Nat.two_pow_pos 32
      · exact Nat.lt_of_le_of_lt (List.length_take_le _ _) hn
  · exact Nat.two_pow_pos 32

/-- Every argument the argument loop collects was pushed. -/
theorem readArgs_args_lt (script : CScript) :
    ∀ (fuel pc : Nat) (acc : List valtype), ∀ a ∈ (readArgs script fuel pc acc).1,
      a ∈ acc ∨ a.length < 2 ^ 32
  | 0, _, _, a, ha => .inl ha
  | fuel + 1, pc, acc, a, ha => by
    rw [readArgs_succ] at ha
    have hlt := getScriptOp_data_lt script pc
    rcases hread : getScriptOp script pc with ⟨ok, opcode, vch, pc'⟩
    rw [hread] at ha hlt
    dsimp only at ha hlt
    split_ifs at ha
    · exact .inl ha
    · exact .inl ha
    · exact .inl ha
    · rcases readArgs_args_lt script fuel pc' (acc ++ [vch]) a ha with ha' | ha'
      · rcases List.mem_append.mp ha' with ha' | ha'
        · exact .inl ha'
        · rw [List.mem_singleton.mp ha']
          exact .inr hlt
      · exact .inr ha'

/-- A name script has the arguments its operation asks for, each of fewer than
`2 ^ 32` bytes. -/
theorem ofScript_isNameOp {script : CScript} (h : (ofScript script).isNameOp = true) :
    (∃ nameOp, nameOpOf nameOp (ofScript script).args.length = some (ofScript script).op) ∧
      ∀ a ∈ (ofScript script).args, a.length < 2 ^ 32 := by
  unfold isNameOp at h
  unfold ofScript at h ⊢
  rcases hfirst : getScriptOp script 0 with ⟨ok, nameOp, vch, pc⟩
  rw [hfirst] at h
  dsimp only at h ⊢
  cases ok with
  | false => simp at h
  | true =>
    simp only [Bool.not_true, Bool.false_eq_true, if_false] at h ⊢
    have hargs := readArgs_args_lt script (script.length + 1) pc []
    rcases hread : readArgs script (script.length + 1) pc [] with ⟨args, _ | ⟨opcode, pc'⟩⟩
    · rw [hread] at h
      simp at h
    · rw [hread] at h hargs
      dsimp only at h hargs ⊢
      cases hop : nameOpOf nameOp args.length with
      | none =>
        rw [hop] at h
        simp at h
      | some op =>
        dsimp only
        refine ⟨⟨nameOp, hop⟩, fun a ha => ?_⟩
        rcases hargs a ha with ha' | ha'
        · cases ha'
        · exact ha'

/-- Building a name script and parsing it gives back the operation and its
arguments for every address, and the address exactly when `addressEnd addr = 1`;
re-building any name script from its parts gives back its operation and its
arguments, and its address under the same condition. -/
theorem buildName_parse_roundTrip {Hash160 : valtype → valtype}
    (hHash : ∀ x, (Hash160 x).length = 20) {name value rand : valtype}
    (hname : name.length < 2 ^ 32) (hvalue : value.length < 2 ^ 32)
    (hrand : rand.length < 2 ^ 32) (addr : CScript) :
    (let s := ofScript (buildNameNew Hash160 addr name rand);
      s.isNameOp = true ∧ s.op = .OP_NAME_NEW ∧ s.getOpHash = Hash160 (rand ++ name) ∧
        (s.getAddress = addr ↔ addressEnd addr = 1)) ∧
    (let s := ofScript (buildNameFirstupdate addr name value rand);
      s.isNameOp = true ∧ s.op = .OP_NAME_FIRSTUPDATE ∧ s.getOpName = name ∧
        s.getOpRand = rand ∧ s.getOpValue = value ∧ (s.getAddress = addr ↔ addressEnd addr = 1)) ∧
    (let s := ofScript (buildNameUpdate addr name value);
      s.isNameOp = true ∧ s.op = .OP_NAME_UPDATE ∧ s.getOpName = name ∧ s.getOpValue = value ∧
        (s.getAddress = addr ↔ addressEnd addr = 1)) ∧
    ∀ script : CScript, (ofScript script).isNameOp = true →
      let s := ofScript script;
      let s' := ofScript (AddNamePrefix s.getAddress (GetPrefix s));
      s'.op = s.op ∧ s'.args = s.args ∧
        (s'.getAddress = s.getAddress ↔ addressEnd s.getAddress = 1) := by
  refine ⟨?_, ?_, ?_, fun script h => ?_⟩
  · have hnew := @ofScript_addNamePrefix ⟨.OP_NAME_NEW, [], [Hash160 (rand ++ name)]⟩ OP_NAME_NEW
      rfl (fun a ha => by rw [List.mem_singleton.mp ha, hHash]; decide) addr
    unfold buildNameNew
    rw [hnew]
    exact ⟨rfl, rfl, rfl, drop_addressEnd_eq_iff _ _⟩
  · have hargs : ∀ a ∈ [name, rand, value], a.length < 2 ^ 32 := by
      intro a ha
      simp only [List.mem_cons, List.not_mem_nil, or_false] at ha
      rcases ha with rfl | rfl | rfl <;> assumption
    have hfirst := @ofScript_addNamePrefix ⟨.OP_NAME_FIRSTUPDATE, [], [name, rand, value]⟩
      OP_NAME_FIRSTUPDATE rfl hargs addr
    unfold buildNameFirstupdate
    rw [hfirst]
    exact ⟨rfl, rfl, rfl, rfl, rfl, drop_addressEnd_eq_iff _ _⟩
  · have hargs : ∀ a ∈ [name, value], a.length < 2 ^ 32 := by
      intro a ha
      simp only [List.mem_cons, List.not_mem_nil, or_false] at ha
      rcases ha with rfl | rfl <;> assumption
    have hupdate := @ofScript_addNamePrefix ⟨.OP_NAME_UPDATE, [], [name, value]⟩
      OP_NAME_UPDATE rfl hargs addr
    unfold buildNameUpdate
    rw [hupdate]
    exact ⟨rfl, rfl, rfl, rfl, drop_addressEnd_eq_iff _ _⟩
  · -- a parsed name script has its operation's arguments, so its prefix reads back
    obtain ⟨⟨nameOp, hc⟩, hargs⟩ := ofScript_isNameOp h
    dsimp only
    rw [ofScript_addNamePrefix hc hargs]
    exact ⟨rfl, rfl, drop_addressEnd_eq_iff _ _⟩

/-- An empty address does not come back: `CNameScript` reads `OP_DROP` as the
address of `buildNameUpdate [] name value`. -/
theorem buildNameUpdate_emptyAddress :
    (ofScript (buildNameUpdate [] [0x61] [0x62])).getAddress ≠ [] := by
  have h := @buildName_parse_roundTrip (fun _ => List.replicate 20 0) (fun _ => List.length_replicate)
    [0x61] [0x62] [] (by decide) (by decide) (by decide) []
  intro heq
  have hend : addressEnd [] = 1 := Iff.mp h.2.2.1.2.2.2.2 heq
  exact absurd hend (by decide)

end CNameScript

end Namecoin.Script
