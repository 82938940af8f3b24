import Mathlib

/-! # Fee fractions and the comparison of diagrams (util/feefrac)

A `FeeFrac` is a fee, an `int64_t`, and a size, an `int32_t`. Their sum and
difference wrap at those widths (`wrapInt`): the overflow is undefined in
C++, and the compiled code computes it in two's complement. `ByRatio` compares
two fee rates by cross multiplication in 128 bits, where the products of an
`int64_t` and an `int32_t` cannot overflow.

`CompareChunks` walks the points of two fee rate diagrams, given by their
chunks, in order of size. At each point it asks whether the point lies above
or below the other diagram's segment there, by comparing the slopes from the
other diagram's previous point, and records on which side a diagram is better
(`compareAt`). It stops early once each side is better somewhere. -/

namespace Namecoin.Util

/-- `x` as a two's complement integer of `w` bits. -/
def wrapInt (w : Nat) (x : Int) : Int := (x + 2 ^ (w - 1)) % 2 ^ w - 2 ^ (w - 1)

/-- A fee and a size. -/
structure FeeFrac where
  fee : Int
  size : Int
  deriving DecidableEq, Repr, Inhabited

namespace FeeFrac

/-- `operator+`, in `int64_t` and `int32_t`. -/
instance : Add FeeFrac := ⟨fun a b => ⟨wrapInt 64 (a.fee + b.fee), wrapInt 32 (a.size + b.size)⟩⟩

/-- `operator-`, in `int64_t` and `int32_t`. -/
instance : Sub FeeFrac := ⟨fun a b => ⟨wrapInt 64 (a.fee - b.fee), wrapInt 32 (a.size - b.size)⟩⟩

theorem add_def (a b : FeeFrac) :
    a + b = ⟨wrapInt 64 (a.fee + b.fee), wrapInt 32 (a.size + b.size)⟩ := rfl

theorem sub_def (a b : FeeFrac) :
    a - b = ⟨wrapInt 64 (a.fee - b.fee), wrapInt 32 (a.size - b.size)⟩ := rfl

/-- `FeeFrac::MulFallback`: the product of an `int64_t` and an `int32_t` as a high
`int64_t` and a low `uint32_t`. `static_cast<uint32_t>` is the remainder modulo
`2^32` and `>> 32` the arithmetic shift, a division rounding down. -/
def MulFallback (a b : Int) : Int × Int :=
  let low := wrapInt 64 (a % 2 ^ 32 * b)
  let high := wrapInt 64 (a / 2 ^ 32 * b)
  (wrapInt 64 (high + low / 2 ^ 32), low % 2 ^ 32)

/-- `FeeFrac::DivFallback`: the 96-bit `n` divided by `d`, the high part first. The
C++ `/` and `%` round towards zero (`Int.tdiv`, `Int.tmod`), and `<< 32` is the
multiplication modulo `2^64` of C++20. -/
def DivFallback (n : Int × Int) (d : Int) (round_down : Bool) : Int :=
  let quot_high := n.1.tdiv d
  let n_low := wrapInt 64 (wrapInt 64 (n.1.tmod d * 2 ^ 32) + n.2)
  let quot_low := n_low.tdiv d
  let mod_low := wrapInt 32 (n_low.tmod d)
  let quot_low := wrapInt 64 (quot_low +
    ((if mod_low > 0 then 1 else 0) - (if mod_low ≠ 0 ∧ round_down = true then 1 else 0)))
  wrapInt 64 (wrapInt 64 (quot_high * 2 ^ 32) + quot_low)

/-- `FeeFrac::Mul` with `__int128`, where the product is exact. -/
def Mul (a b : Int) : Int := a * b

/-- `FeeFrac::Div` with `__int128`: the quotient and remainder go to `int64_t` and
`int32_t`, and a quotient rounded the wrong way is corrected. -/
def Div (n d : Int) (round_down : Bool) : Int :=
  let quot := wrapInt 64 (n.tdiv d)
  let mod := wrapInt 32 (n.tmod d)
  wrapInt 64 (quot + ((if mod > 0 then 1 else 0) - (if mod ≠ 0 ∧ round_down = true then 1 else 0)))

/-- `FeeFrac::EvaluateFee<RoundDown> (at_size)`: below `2^33` the fee times a size fits
a `uint64_t`, which is divided by `uint32_t (size)` and rounded with `CeilDiv` if not
down; otherwise `Div (Mul (fee, at_size), size, RoundDown)`. The result goes back to
`int64_t`. -/
def EvaluateFee (f : FeeFrac) (RoundDown : Bool) (at_size : Int) : Int :=
  if f.fee ≥ 0 ∧ f.fee < 0x200000000 then
    let dividend := f.fee * (at_size % 2 ^ 64) % 2 ^ 64
    let divisor := f.size % 2 ^ 32
    if RoundDown then wrapInt 64 (dividend / divisor)
    else wrapInt 64 (dividend / divisor + if dividend % divisor ≠ 0 then 1 else 0)
  else Div (Mul f.fee at_size) f.size RoundDown

end FeeFrac

/-- `ByRatio {a} <=> ByRatio {b}`: `Mul (a.fee, b.size) <=> Mul (b.fee, a.size)`. -/
def compareByRatio (a b : FeeFrac) : Ordering := compare (a.fee * b.size) (b.fee * a.size)

/-- `std::partial_ordering`. -/
inductive PartialOrdering where
  | less
  | equivalent
  | greater
  | unordered
  deriving DecidableEq, Repr

namespace PartialOrdering

/-- A `std::strong_ordering` as a partial one. -/
def ofOrdering : Ordering → PartialOrdering
  | .lt => .less
  | .eq => .equivalent
  | .gt => .greater

/-- The ordering of the arguments swapped. -/
def reverse : PartialOrdering → PartialOrdering
  | .less => .greater
  | .equivalent => .equivalent
  | .greater => .less
  | .unordered => .unordered

end PartialOrdering

/-- One input of `CompareChunks`: its chunks from `next_index` on, `accum`, and
`better_somewhere`. -/
structure Side where
  rest : List FeeFrac
  accum : FeeFrac
  better : Bool

namespace Side

/-- `next_point (dia)`: the first unprocessed point. -/
def nextPoint (s : Side) : FeeFrac := s.rest.headD default + s.accum

/-- `advance (dia)`. -/
def advance (s : Side) : Side :=
  match s.rest with
  | [] => s
  | c :: rest => { s with rest := rest, accum := s.accum + c }

end Side

/-- Where `P`, the first unprocessed point, which is on side `p`, lies against
the other diagram `o` between its previous point `A` and its next point `B`,
by the slopes from `A`; and `o` after it, with `B` processed if it has the
size of `P`. -/
def compareSlope (p o : Side) : Ordering × Side :=
  let point_p := p.nextPoint
  let point_a := o.accum
  let slope_ap := point_p - point_a
  match o.rest with
  -- no points left on `o`: its diagram is horizontal from `A` on
  | [] => (compareByRatio slope_ap ⟨0, 1⟩, o)
  | _ :: _ =>
    let point_b := o.nextPoint
    let slope_ab := point_b - point_a
    (compareByRatio slope_ap slope_ab, if point_b.size = point_p.size then o.advance else o)

/-- The comparison at the first unprocessed point `P`, on side `p`: the side
above the other diagram there is better somewhere, and `P` is processed. -/
def compareAt (p o : Side) : Side × Side :=
  let r := compareSlope p o
  let cmp := r.1
  let o := r.2
  let p := if cmp = .gt then { p with better := true } else p
  let o := if cmp = .lt then { o with better := true } else o
  (p.advance, o)

/-- The `do … while (true)` loop. Every turn processes a point, so
`chunks0.size () + chunks1.size ()` turns suffice. -/
def compareLoop : Nat → Side → Side → PartialOrdering
  | 0, s0, s1 => .ofOrdering (compare s0.better s1.better)
  | fuel + 1, s0, s1 =>
    let done_0 := s0.rest.isEmpty
    let done_1 := s1.rest.isEmpty
    if done_0 && done_1 then .ofOrdering (compare s0.better s1.better)
    else
      -- `unproc_side`: the side of the first unprocessed point, `true` for the second
      let unproc_side := if done_0 || done_1 then done_0
        else decide (s0.nextPoint.size > s1.nextPoint.size)
      let r := if unproc_side then (compareAt s1 s0).swap else compareAt s0 s1
      if r.1.better && r.2.better then .unordered
      else compareLoop fuel r.1 r.2

/-- `CompareChunks (chunks0, chunks1)`. -/
def CompareChunks (chunks0 chunks1 : List FeeFrac) : PartialOrdering :=
  compareLoop (chunks0.length + chunks1.length) ⟨chunks0, default, false⟩ ⟨chunks1, default, false⟩

end Namecoin.Util
