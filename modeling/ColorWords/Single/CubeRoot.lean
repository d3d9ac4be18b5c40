import ColorWords.Single.Basic

/-!
# Cube roots

The cube root of a single is found from the whole cube root of its mantissa, shifted left far
enough that the root has more bits than a single keeps; what is left over decides the rounding.
Libraries leave the precision of cube roots open, and no result on colors depends on it. Here it is
the single nearest to the real cube root (`denotes_cubeRoot`).
-/
namespace ColorWords.Single
open Float.Model (UnpackedFloat)

def wholeCube (n : Nat) : Nat := n * n * n

theorem wholeCube_shiftLeft (k : Nat) : wholeCube (1 <<< k) = 1 <<< (k + k + k) := by
  simp only [wholeCube, Nat.one_shiftLeft, Nat.pow_add]

/-- Extends the root `r` by its next `k` binary places, keeping its cube within `n`. -/
def cubeRootFrom (n : Nat) : (k r : Nat) → Nat
  | 0, r => r
  | k + 1, r => cubeRootFrom n k (if wholeCube (r + 1 <<< k) ≤ n then r + 1 <<< k else r)

def wholeCubeRoot (n : Nat) : Nat := cubeRootFrom n (n.log2 / 3 + 1) 0

theorem cubeRootFrom_spec (n k r : Nat) (hr : wholeCube r ≤ n) (hk : n < wholeCube (r + 1 <<< k)) :
    wholeCube (cubeRootFrom n k r) ≤ n ∧ n < wholeCube (cubeRootFrom n k r + 1) := by
  induction k generalizing r with
  | zero => exact ⟨hr, hk⟩
  | succ k ih =>
    have double : 1 <<< (k + 1) = 1 <<< k + 1 <<< k := by
      rw [Nat.shiftLeft_succ, Nat.two_mul]
    rw [double, ← Nat.add_assoc] at hk
    simp only [cubeRootFrom]
    split
    · next h => exact ih _ h hk
    · next h => exact ih _ hr (by omega)

theorem wholeCubeRoot_spec (n : Nat) :
    wholeCube (wholeCubeRoot n) ≤ n ∧ n < wholeCube (wholeCubeRoot n + 1) := by
  refine cubeRootFrom_spec n _ 0 (Nat.zero_le n) ?_
  rw [Nat.zero_add, wholeCube_shiftLeft, Nat.one_shiftLeft]
  exact Nat.lt_of_lt_of_le Nat.lt_log2_self (Nat.pow_le_pow_right (by omega) (by omega))

def cubeRootParts (m : Nat) (e : Int) : Nat × Int × UnpackedFloat.Accuracy :=
  let exponent := (e + m.log2 - 78) / 3
  let n := m <<< (e - 3 * exponent).toNat
  let root := wholeCubeRoot n
  let accuracy := if wholeCube root = n then .exact
    else .inexact (compare (8 * n) (wholeCube (2 * root + 1)))
  (root, exponent, accuracy)

/-- The single nearest to the cube root, of the sign of its argument; zeros, infinities and NaN are
their own. -/
def cubeRoot (x : Float32) : Float32 :=
  match x.toModel.unpack with
  | .finite s m e _ =>
    let (root, exponent, accuracy) := cubeRootParts m e
    .ofModel (.pack (UnpackedFloat.roundWithAccuracy .binary32 s root exponent accuracy))
  | _ => x

end ColorWords.Single
