import MemoryTrigger.Proofs.Lowering.Provenance
import MemoryTrigger.Proofs.Simplify.Representable
import MemoryTrigger.Proofs.Wire.RoundTrip

/-! # What is compiled or simplified can be written and read back

Not every trigger has a wire text of its own, but those that the library makes do.  Lowering makes
representable triggers, and simplifying keeps them so round by round; reading back is then a matter
of the text alone. -/
namespace MemoryTrigger

theorem Trigger.isRepresentable_of_compile {s : Setting} {c : Condition} {t : Trigger}
    (h : Trigger.compile s c = .ok t) : t.IsRepresentable := by
  obtain ⟨u, first, hlower, rfl | rfl⟩ := exists_lower_of_compile h
  · exact isRepresentable_simplify (Condition.isRepresentable_of_lower hlower).rows
  · exact Condition.isRepresentable_of_lower hlower

/-- **Everything that is produced can be written and read back**: whatever a condition compiles to,
simplified or not, and whatever simplifying makes of a trigger that was read, in full or after any
number of rounds. -/
theorem Trigger.read_wire_of_produced :
    (∀ (s : Setting) (c : Condition) (t : Trigger),
      Trigger.compile s c = .ok t → Trigger.read t.wire = .ok t) ∧
    ∀ (text : String) (t : Trigger), Trigger.read text = .ok t →
      Trigger.read t.simplify.wire = .ok t.simplify ∧
      ∀ limit number, Trigger.read (t.simplifyRounds limit number).value.wire =
        .ok (t.simplifyRounds limit number).value := by
  refine ⟨fun s c t h => read_wire (isRepresentable_of_compile h), fun text t h => ?_⟩
  have ht := isRepresentable_of_read h
  exact ⟨read_wire (isRepresentable_simplify ht.rows), fun limit number =>
    read_wire (ht.simplifyRounds limit number)⟩

/-- Three hits of one comparison less those of another, or a score beside a measurement that counts
while it is not seven. -/
def Condition.measuredChoice : Condition :=
  let lives : Value := .read "byte" (.constant 0x10)
  let score : Value := .read "word" (.add (.read "dword" (.constant 0x20)) (.constant 4))
  .or
    (.tally 3 [{ condition := .compare lives .eq (.constant 1) },
      { condition := .compare lives .gt score, deduct := true }])
    (.and (.triggerWhen (.repeated 2 (.compare (.add lives score) .gt (.constant 4))))
      (.measured (.compare lives .lt (.constant 9))
        (some (.compare score .ne (.constant 7))) none))

/-- The core of this text ends in a row that waits for another, and takes in the filter that the
reset of the second alternate turns into. -/
theorem Trigger.read_wire_of_produced_measuredChoice :
    ∃ plain simplified dangling,
      Trigger.compile { options := { simplify := false } } Condition.measuredChoice = .ok plain ∧
      Trigger.read plain.wire = .ok plain ∧
      Trigger.compile {} Condition.measuredChoice = .ok simplified ∧
      Trigger.read simplified.wire = .ok simplified ∧
      Trigger.read "I:0xH5S0xH10=1_R:1!=1S0xH10=2_R:1=1" = .ok dangling ∧
      Trigger.read dangling.simplify.wire = .ok dangling.simplify := by
  have hplain : (Trigger.compile { options := { simplify := false } }
      Condition.measuredChoice).isOk = true := by
    decide +kernel
  have hsimplified : (Trigger.compile {} Condition.measuredChoice).isOk = true := by
    decide +kernel
  have hdangling : (Trigger.read "I:0xH5S0xH10=1_R:1!=1S0xH10=2_R:1=1").isOk = true := by
    decide +kernel
  obtain ⟨plain, hplain⟩ := exists_eq_ok_of_isOk hplain
  obtain ⟨simplified, hsimplified⟩ := exists_eq_ok_of_isOk hsimplified
  obtain ⟨dangling, hdangling⟩ := exists_eq_ok_of_isOk hdangling
  exact ⟨plain, simplified, dangling, hplain, read_wire_of_produced.1 _ _ plain hplain,
    hsimplified, read_wire_of_produced.1 _ _ simplified hsimplified,
    hdangling, (read_wire_of_produced.2 _ dangling hdangling).1⟩

end MemoryTrigger
