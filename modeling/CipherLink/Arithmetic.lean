import CipherLink.Bytes

/-!
# Modular arithmetic and primes

`powMod` raises to a power by squaring and `inverse?` finds inverses by the
extended Euclidean algorithm. Random primes are found by testing the odd numbers from a
random one on. The test is the strong test to several bases, behind a division by small
numbers.
-/

namespace CipherLink.Modular

def powMod (b e m : Nat) : Nat :=
  if e = 0 then 1 % m
  else
    let squares := powMod (b * b % m) (e / 2) m
    if e % 2 = 1 then b * squares % m else squares
termination_by e
decreasing_by omega

theorem powMod_eq (b e m : Nat) : powMod b e m = Nat.pow b e % m := by
  simp only [Nat.pow_eq]
  fun_induction powMod b e m with
  | case1 => simp
  | case2 b e h squares hOdd ih =>
    have hSquare : (b * b % m) ^ (e / 2) % m = b ^ (2 * (e / 2)) % m := by
      rw [← Nat.pow_mod, Nat.pow_mul, Nat.pow_two]
    have he : b ^ e = b * b ^ (2 * (e / 2)) := by
      rw [← Nat.pow_succ']
      congr 1
      omega
    have hs : squares = b ^ (2 * (e / 2)) % m := ih.trans hSquare
    rw [hs, he, Nat.mul_mod, Nat.mod_mod, ← Nat.mul_mod]
  | case3 b e h squares hEven ih =>
    have hSquare : (b * b % m) ^ (e / 2) % m = b ^ (2 * (e / 2)) % m := by
      rw [← Nat.pow_mod, Nat.pow_mul, Nat.pow_two]
    have he : 2 * (e / 2) = e := by omega
    have hs : squares = b ^ (2 * (e / 2)) % m := ih.trans hSquare
    rw [hs, he]

/-- The Euclidean algorithm on the remainders `r` and `s`, which are `x` and `y`
times the same number modulo another: the factor of their greatest common divisor. -/
def euclid (r s : Nat) (x y : Int) : Int :=
  if s = 0 then x else euclid s (r % s) y (x - (r / s : Nat) * y)
termination_by s
decreasing_by exact Nat.mod_lt _ (by omega)

def inverse? (a m : Nat) : Option Nat :=
  let x := (euclid (a % m) m 1 0 % m).toNat
  if a * x % m = 1 then some x else none

theorem inverse?_eq_some {a m x : Nat} (h : inverse? a m = some x) : a * x % m = 1 := by
  simp only [inverse?] at h
  split at h
  · simp_all
  · simp at h

end CipherLink.Modular

namespace CipherLink.Prime

def oddProduct : Nat :=
  (List.range 500).foldl (fun n i => n * (2 * i + 1)) 1

/-- Whether the square of `x`, the square of that and so on, `times` in all,
are `n - 1` before they are anything else that betrays `n`. -/
def reachesMinusOne (n : Nat) : Nat → Nat → Bool
  | 0, _ => false
  | times + 1, x => x == n - 1 || reachesMinusOne n times (x * x % n)

/-- The number of factors 2 of `n`, up to `limit`, and what is left of it. -/
def splitTwos : Nat → Nat → Nat × Nat
  | 0, n => (0, n)
  | limit + 1, n =>
    if n % 2 = 0 then
      let (twos, odd) := splitTwos limit (n / 2)
      (twos + 1, odd)
    else (0, n)

def passes (n base : Nat) : Bool :=
  let (twos, odd) := splitTwos n.log2 (n - 1)
  let x := Modular.powMod base odd n
  x == 1 || reachesMinusOne n twos x

def bases : List Nat := [2, 3, 5, 7, 11, 13, 17, 19, 23, 29, 31, 37]

def isPrime (n : Nat) : Bool :=
  if n < 1000 then 2 ≤ n && (List.range n).all fun d => d < 2 || n % d != 0
  else n.gcd oddProduct == 1 && n % 2 == 1 && bases.all (passes n)

def searchFrom (n : Nat) : Nat → Option Nat
  | 0 => none
  | tries + 1 => if isPrime n then some n else searchFrom (n + 2) tries

/-- A prime with this number of bits, the two highest ones set. -/
def search (bits : Nat) (noise : Noise) : Option Nat :=
  let low := (noise.take (bits / 8 + 1)).toNat % 1 <<< (bits - 2)
  let start := 3 <<< (bits - 2) + low
  match searchFrom (start + (1 - start % 2)) (32 * bits) with
  | some p => if p < 1 <<< bits then some p else none
  | none => none

end CipherLink.Prime
