import LuaData.Proofs.Equality
import LuaData.Proofs.NumberHash

namespace LuaData

section Seeded

variable (content : UInt64 → List UInt8 → UInt64) (seed : UInt64) (asked asked' : Str → Nat)

namespace Value

theorem mainPosition_seeded (size : Nat) (a : Value) :
    a.mainPosition (.seeded content seed asked) size =
      a.mainPosition (.seeded content seed asked') size := by
  cases a <;> simp only [mainPosition, StringHash.apply_seeded]

/-- Under one seed equal keys belong to the same slot and the slot exists, for strings asked before
and for strings not asked before. The hash behind the slot of a number comes out of a computation
that ends within two rounds and that overflows nowhere, for any bits. -/
theorem mainPosition_of_equal (k : Nat) :
    (∀ a b : Value, a.equal b = true →
      a.mainPosition (.seeded content seed asked) (2 ^ k) =
          b.mainPosition (.seeded content seed asked') (2 ^ k) ∧
        b.mainPosition (.seeded content seed asked') (2 ^ k) < 2 ^ k) ∧
    ∀ bits : UInt64, ∃ word,
      (∀ rounds, Number.machineHash? (rounds + 2) (.ofBits bits) = some word) ∧
        ∀ h : StringHash,
          (number ⟨bits⟩).mainPosition h (2 ^ k) = reducedTo word.toNat (2 ^ k) := by
  constructor
  · intro a b hequal
    refine ⟨?_, mainPosition_lt _ (Nat.two_pow_pos k) b⟩
    rw [mainPosition_seeded content seed asked asked']
    exact mainPosition_congr (.ofSeed content seed asked') _ hequal
  · intro bits
    obtain ⟨word, hword, hhash⟩ := Number.exists_machineHash? ⟨bits⟩
    refine ⟨word, hword, fun h => ?_⟩
    rw [mainPosition, hhash]

/-- The two zeros, and two long strings of which one was asked twice before. -/
theorem mainPosition_of_equal_call :
    let content := fun seed (bytes : List UInt8) => bytes.foldl Str.mix seed
    let new := StringHash.seeded content 7 fun _ => 0
    let used := StringHash.seeded content 7 fun _ => 2
    let long := fun pool => string ⟨pool, 0, List.replicate 41 97⟩
    ((number ⟨0⟩).equal (number ⟨0x8000000000000000⟩) = true ∧
      (number ⟨0⟩).mainPosition new (2 ^ 2) =
          (number ⟨0x8000000000000000⟩).mainPosition used (2 ^ 2) ∧
        (number ⟨0x8000000000000000⟩).mainPosition used (2 ^ 2) < 2 ^ 2) ∧
    ((long 0).equal (long 1) = true ∧
      (long 0).mainPosition new (2 ^ 5) = (long 1).mainPosition used (2 ^ 5) ∧
        (long 1).mainPosition used (2 ^ 5) < 2 ^ 5) :=
  ⟨⟨by decide, (mainPosition_of_equal _ 7 (fun _ => 0) (fun _ => 2) 2).1 _ _ (by decide)⟩,
    ⟨by decide, (mainPosition_of_equal _ 7 (fun _ => 0) (fun _ => 2) 5).1 _ _ (by decide)⟩⟩

end Value

end Seeded

end LuaData
