/-
# Bit stacks

`Stack` (Miscellaneous/Stack.hpp) is a vector of bits with a reading position
and the running count of `PowerEncoding`: a one raises the count, a zero
lowers it, but not below zero. Pushing and popping keep the count of the bits
that are left (`StackAt`), and reading a code puts it back to what it was.
-/
import BeeFish.Lib.Code

namespace BeeFish

open BitCode

/-- `PowerEncoding::writeBit` and `readBit`: a one raises the count, a zero
lowers it if it is positive. -/
def countBit (count : ℕ) (bit : Bool) : ℕ := if bit then count + 1 else count - 1

theorem countBit_eq_height (count : ℕ) (bit : Bool) : countBit count bit = height count [bit] := by
  cases bit <;> rfl

/-- A bit stack: the bits, the reading position `_it` and the count. -/
structure Stack where
  bits : List Bool
  count : ℕ
  it : ℕ
  deriving DecidableEq, Repr

namespace Stack

/-- `Stack()` -/
def empty : Stack := ⟨[], 0, 0⟩

def size (s : Stack) : ℕ := s.bits.length

/-- `Stack::last`; false on the empty stack, where the source reads out of
bounds. -/
def last (s : Stack) : Bool := s.bits.getLastD false

def push_back (s : Stack) (bit : Bool) : Stack :=
  { s with count := countBit s.count bit, bits := s.bits ++ [bit] }

def pop_back (s : Stack) : Stack :=
  { s with
    count :=
      if s.last && decide (0 < s.count) then s.count - 1
      else if !s.last then s.count + 1
      else s.count
    bits := s.bits.dropLast }

/-- `Stack::writeBit`: the bit is counted twice, by `push_back` and by
`PowerEncoding::writeBit`. -/
def writeBit (s : Stack) (bit : Bool) : Stack :=
  let s := s.push_back bit
  { s with count := countBit s.count bit }

def peekBit (s : Stack) : Bool := (s.bits[s.it]?).getD false

def readBit (s : Stack) : Bool × Stack :=
  (s.peekBit,
    { s with
      count := countBit s.count s.peekBit
      it := if s.it < s.bits.length then s.it + 1 else s.it })

def reset (s : Stack) : Stack := { s with it := 0, count := 0 }

def clear (s : Stack) : Stack := { s.reset with bits := [] }

@[simp] theorem empty_bits : empty.bits = [] := rfl
@[simp] theorem empty_count : empty.count = 0 := rfl
@[simp] theorem push_back_bits (s : Stack) (b : Bool) : (s.push_back b).bits = s.bits ++ [b] := rfl
@[simp] theorem push_back_count (s : Stack) (b : Bool) :
    (s.push_back b).count = countBit s.count b :=
  rfl
@[simp] theorem pop_back_bits (s : Stack) : s.pop_back.bits = s.bits.dropLast := rfl
@[simp] theorem reset_bits (s : Stack) : s.reset.bits = s.bits := rfl
@[simp] theorem reset_count (s : Stack) : s.reset.count = 0 := rfl
@[simp] theorem reset_it (s : Stack) : s.reset.it = 0 := rfl

theorem foldl_writeBit_bits : ∀ (v : List Bool) (s : Stack), (v.foldl writeBit s).bits = s.bits ++ v
  | [], s => by simp
  | b :: v, s => by
    rw [List.foldl_cons, foldl_writeBit_bits v]
    simp [writeBit]

end Stack

/-! ### The count of a walk

A cursor pushes the bits of the way it goes; as long as no proper part of the
way is a code, the count is the height of the way. -/

/-- The stack holds the way `w`, and its count is the height of the way. -/
structure StackAt (w : List Bool) (s : Stack) : Prop where
  bits : s.bits = w
  count : s.count = height 0 w

theorem stackAt_empty : StackAt [] Stack.empty := ⟨rfl, rfl⟩

theorem StackAt.push_back {w : List Bool} {s : Stack} (h : StackAt w s) (b : Bool) :
    StackAt (w ++ [b]) (s.push_back b) :=
  ⟨by rw [Stack.push_back_bits, h.bits],
    by rw [Stack.push_back_count, h.count, countBit_eq_height, height_append]⟩

theorem StackAt.last {w : List Bool} {b : Bool} {s : Stack} (h : StackAt (w ++ [b]) s) :
    s.last = b := by
  simp [Stack.last, h.bits]

theorem StackAt.size {w : List Bool} {s : Stack} (h : StackAt w s) : s.size = w.length := by
  rw [Stack.size, h.bits]

theorem StackAt.pop_back {w : List Bool} {b : Bool} {s : Stack} (h : StackAt (w ++ [b]) s)
    (hb : b = true ∨ 0 < height 0 w) : StackAt w s.pop_back := by
  refine ⟨by simp [h.bits], ?_⟩
  have hc : s.count = countBit (height 0 w) b := by rw [h.count, height_append, countBit_eq_height]
  simp only [Stack.pop_back, h.last, hc]
  cases b with
  | true => simp [countBit]
  | false =>
    have hp := hb.resolve_left (by decide)
    simp only [countBit, Bool.false_and, Bool.not_false, if_true, Bool.false_eq_true, if_false]
    omega

/-- After a code the count is zero again, so reading the item off the stack
and resetting it does not disturb the walk. -/
theorem StackAt.of_code {w : List Bool} {s : Stack} (hw : IsCode w) (hb : s.bits = w)
    (hc : s.count = 0) :
    StackAt w s := ⟨hb, by rw [hc, height_closes hw]⟩

end BeeFish
