/-!
# Word sizes

The ranges of the numbers that widths, counts, order keys and constants are kept in. The limits are
written out, so that a comparison with one is a fact of linear arithmetic.
-/

namespace NetPrep

/-- One more than the largest 16-bit number. -/
def limit16 : Nat := 0x10000

/-- One more than the largest 32-bit number. Widths and list positions lie below it. -/
def limit32 : Nat := 0x100000000

/-- What 32 bits keep of a number. -/
def low32 (n : Nat) : Nat := n % limit32

/-- One more than the largest 64-bit number. Counts and order keys lie below it. -/
def limit64 : Nat := 0x10000000000000000

theorem low32_of_lt {n : Nat} (h : n < limit32) : low32 n = n := Nat.mod_eq_of_lt h

/-- Whether an integer is a signed 64-bit number. -/
def fitsInt64 (n : Int) : Bool := -0x8000000000000000 ≤ n ∧ n < 0x8000000000000000

theorem fitsInt64_iff {n : Int} :
    fitsInt64 n = true ↔ -0x8000000000000000 ≤ n ∧ n < 0x8000000000000000 := by
  simp [fitsInt64]

end NetPrep
