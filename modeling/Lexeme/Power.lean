/-!
# Powers

Bit widths and decimal places enter the arithmetic of literals as powers of two and of ten.
Counters of 32 bits start again at 0 behind their last value.
-/

set_option autoImplicit false

namespace Lexeme

/-- The `n`-th power of two. -/
def pow2 (n : Nat) : Nat := Nat.pow 2 n

/-- The `n`-th power of ten. -/
def pow10 (n : Nat) : Nat := Nat.pow 10 n

/-- What a counter of 32 bits shows for a number. -/
def wrap32 (n : Nat) : Nat := n % pow2 32

theorem wrap32_of_lt {n : Nat} (h : n < pow2 32) : wrap32 n = n := Nat.mod_eq_of_lt h

@[simp] theorem wrap32_wrap32 (n : Nat) : wrap32 (wrap32 n) = wrap32 n := Nat.mod_mod n _

@[simp] theorem wrap32_wrap32_add (m n : Nat) : wrap32 (wrap32 m + n) = wrap32 (m + n) :=
  Nat.mod_add_mod m (pow2 32) n

/-- A counter that went on by less than its range is where it was only if it stood still. -/
theorem wrap32_add_left_cancel {m n : Nat} (hn : n < pow2 32) (h : wrap32 (m + n) = wrap32 m) :
    n = 0 := by
  have hpow : pow2 32 = 4294967296 := rfl
  rw [wrap32, wrap32, hpow] at h
  omega

end Lexeme
