/-! Numbers in machine words: how many tuples of an arity there are over a universe, as long as a
word can count them, the row-major numbering of tuples, and what is left of a number in a word of 32
bits. -/
namespace ModelFinder

def arityBound : Nat := 4294967296

def countBound : Nat := 18446744073709551616

/-- The power of `size` by `arity` if both it and its exponent are representable. The guards come in
an order in which no huge power is ever computed. -/
def capacity? (size arity : Nat) : Option Nat :=
  if arityBound ≤ arity then none
  else if size ≤ 1 then some (Nat.pow size arity)
  else if 64 ≤ arity then none
  else if Nat.pow size arity < countBound then some (Nat.pow size arity)
  else none

/-- The row-major index of a tuple of positions below `base`; the first position weighs most. -/
def encodeIndex (base : Nat) (positions : List Nat) : Nat :=
  positions.foldl (fun index position => index * base + position) 0

def decodeIndex (base : Nat) : Nat → Nat → List Nat
  | 0, _ => []
  | arity + 1, index => decodeIndex base arity (index / base) ++ [index % base]

def wordBound : Nat := 4294967296

def word (n : Nat) : Nat := n % wordBound

/-- The last 32 bits of a number, the first of them as a sign. -/
def signedWord (n : Int) : Int := n.bmod wordBound

theorem signedWord_of_natAbs_lt {n : Int} (small : n.natAbs < 2147483648) : signedWord n = n := by
  rw [signedWord, Int.bmod_eq_of_le] <;> simp only [wordBound] <;> omega

end ModelFinder
