import MemoryTrigger.Proofs.Lowering.Provenance
import MemoryTrigger.Proofs.Simplify.LostTruth

/-! # Compiled triggers without anything that must hold

Compiling checks that some row must hold, but checks the trigger as it was lowered.  Every lowered
group ends in a terminal row (`Condition.ends_of_lower`), so that what simplification does to
the trigger is known, and with it when the check has been in vain
(`Trigger.hasTruthy_compile_eq_false_iff`). -/
namespace MemoryTrigger

namespace Trigger

/-- **When a compiled trigger has nothing that must hold**: it was simplified, though the trigger as
lowered had something, and some round took the last of it, after which the guards stayed. -/
theorem hasTruthy_compile_eq_false_iff {s : Setting} {c : Condition} {t : Trigger}
    (h : compile s c = .ok t) :
    t.hasTruthy = false ↔ s.options.simplify = true ∧
      ∃ u first, c.lower s none = .ok (u, first) ∧ u.hasTruthy = true ∧
        ∃ n < Pass.maxRounds, (round^[n] u).LosesTruth ∧
          ∀ k, n < k → k < Pass.maxRounds → (round^[k] u).KeepsGuards := by
  simp only [compile, Lowered.bind_eq_ok, Prod.exists] at h
  obtain ⟨u, first, hlower, h⟩ := h
  split at h
  · simp at h
  rename_i hchecked
  have htruthy : u.hasTruthy = true := by simpa [hasTruthy] using hchecked
  cases hsimplify : s.options.simplify with
  | false =>
    rw [hsimplify] at h
    cases h
    simp [htruthy]
  | true =>
    rw [hsimplify] at h
    cases h
    refine (hasTruthy_simplify_eq_false_iff (Condition.all_isTerminated_of_lower hlower)
      htruthy).trans ⟨fun hlost => ⟨rfl, u, first, hlower, htruthy, hlost⟩, ?_⟩
    rintro ⟨-, u', first', hlower', -, hlost⟩
    cases hlower.symm.trans hlower'
    exact hlost

end Trigger

/-- A comparison that must hold, a reset of its negation, and a pause that counts hits. -/
def Condition.resetUnlessHeld : Condition :=
  let lives : Value := .read "byte" (.constant 1)
  let timer : Value := .read "byte" (.constant 2)
  .and (.and (.compare lives .eq (.constant 1)) (.resetIf (.compare lives .ne (.constant 1))))
    (.pauseIf (.repeated 5 (.compare timer .eq (.constant 2))))

/-- The comparison has given way to the reset. -/
def Trigger.resetAndPause : Trigger :=
  { core := [{ Row.comparing (.memory .byte 1) .ne (.literal 1) with role := .resetIf },
      { Row.comparing (.memory .byte 2) .eq (.literal 2) with role := .pauseIf, hits := 5 }] }

theorem Trigger.hasTruthy_compile_eq_false_iff_resetUnlessHeld :
    compile {} Condition.resetUnlessHeld = .ok resetAndPause ∧ resetAndPause.hasTruthy = false ∧
      ∃ u first, Condition.resetUnlessHeld.lower {} none = .ok (u, first) ∧ u.hasTruthy = true ∧
        ∃ n < Pass.maxRounds, (round^[n] u).LosesTruth ∧
          ∀ k, n < k → k < Pass.maxRounds → (round^[k] u).KeepsGuards := by
  have hcompile : compile {} Condition.resetUnlessHeld = .ok resetAndPause := by decide +kernel
  have hnone : resetAndPause.hasTruthy = false := rfl
  exact ⟨hcompile, hnone, ((hasTruthy_compile_eq_false_iff hcompile).mp hnone).2⟩

end MemoryTrigger
