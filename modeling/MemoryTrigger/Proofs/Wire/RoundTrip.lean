import MemoryTrigger.Proofs.Numerals
import MemoryTrigger.Proofs.Wire.Acceptance
import MemoryTrigger.Proofs.Wire.Representable
import MemoryTrigger.Wire.Writer

/-! # Wire text is read as it was written

What is written is one of the texts of the grammar: every trigger that can be represented has a phrase
with its own text that stands for it.  And every phrase stands for something that can be represented,
so that no other trigger comes back (`Trigger.read_wire_iff`). -/
namespace MemoryTrigger

/-! ## What is read can be written -/

theorem OperandPhrase.isRepresentable (d : OperandPhrase) : d.operand.IsRepresentable := by
  cases d with
  | read mark x size address =>
    cases mark with
    | none => exact ⟨nofun, nofun⟩
    | some m =>
      have hmarks : ∀ entry ∈ inEitherCase OperandKind.marks,
          entry.2 ≠ .unused ∧ entry.2 ≠ .literal := by decide
      obtain ⟨hunused, hliteral⟩ := hmarks _ m.listed
      exact ⟨hunused, fun h => absurd h hliteral⟩
  | hexadecimal => exact Operand.isRepresentable_literal _
  | decimal => exact Operand.isRepresentable_literal _

theorem RowPhrase.isRepresentable (r : RowPhrase) : r.row.IsRepresentable := by
  refine ⟨r.left.isRepresentable, ?_⟩
  obtain ⟨flag, left, side, hits⟩ := r
  cases side with
  | none => exact rfl
  | some side =>
    obtain ⟨op, right⟩ := side
    cases op <;> exact right.isRepresentable

theorem GroupPhrase.areRepresentable (g : GroupPhrase) : Row.AreRepresentable g.rows := by
  refine ⟨List.cons_ne_nil _ _, List.forall_mem_cons.mpr ⟨g.first.isRepresentable, ?_⟩⟩
  exact List.forall_mem_map.mpr fun r _ => r.isRepresentable

/-- **Every phrase stands for something that can be represented.** -/
theorem TriggerPhrase.isRepresentable (d : TriggerPhrase) : d.trigger.IsRepresentable := by
  have hcore : ∀ r ∈ (d.core.map GroupPhrase.rows).getD [], r.IsRepresentable := by
    cases d.core with
    | none => simp
    | some g => exact g.areRepresentable.2
  have halternates : ∀ rows ∈ d.trigger.alternates, Row.AreRepresentable rows :=
    List.forall_mem_map.mpr fun a _ => a.group.areRepresentable
  refine ⟨fun r hr => ?_, fun rows hrows => (halternates rows hrows).1, fun hne => ?_⟩
  · rcases List.mem_append.mp (show r ∈ d.trigger.core ++ d.trigger.alternates.flatten from hr)
      with hr | hr
    · unfold TriggerPhrase.trigger at hr
      dsimp only at hr
      split at hr
      · cases hr
      · exact hcore r hr
    · obtain ⟨rows, hmem, hr⟩ := List.mem_flatten.mp hr
      exact (halternates rows hmem).2 r hr
  -- The place of an empty core is held by `1=1`, and only then it is dropped.
  · have hempty : d.alternates.isEmpty = false := by simpa [TriggerPhrase.trigger] using hne
    unfold TriggerPhrase.trigger
    by_cases hheld : (d.core.map GroupPhrase.rows).getD [] = [Row.alwaysTrue]
    · simp [hempty, hheld]
    · simp [hheld]

/-! ## What is written is a phrase -/

/-! ### Numerals -/

theorem exists_decimalPhrase (n : Nat) :
    ∃ d : DecimalPhrase, d.text = (Numeral.decimal n).toList ∧ d.value = n := by
  have hdigit (c : Char) (hc : c ∈ Nat.toDigits 10 n) : c.isDigit = true :=
    Nat.isDigit_of_mem_toDigits (by decide) (by decide) hc
  refine ⟨⟨Nat.toDigits 10 n, Nat.toDigits_ne_nil, hdigit⟩, ?_, Nat.ofDigitChars_ten_toDigits⟩
  rw [Numeral.decimal, String.toList_ofList]

/-- The letter of a hexadecimal digit. -/
def hexLetter (d : Fin 16) : Letter hexDigits where
  char := d.val.digitChar
  value := d.val
  listed := by revert d; decide

/-- The digits of a number, as letters. -/
theorem exists_hexLetters (n : Nat) :
    ∃ ds : List (Letter hexDigits), ds.map Letter.char = Nat.toDigits 16 n ∧
      (ds.map Letter.value).foldl (fun sum digit => 16 * sum + digit) 0 = n := by
  refine Numeral.toDigits_sixteen_induction
    (P := fun n digits => ∃ ds : List (Letter hexDigits), ds.map Letter.char = digits ∧
      (ds.map Letter.value).foldl (fun sum digit => 16 * sum + digit) 0 = n)
    (fun d => ?_) (fun n d ih => ?_) n
  · exact ⟨[hexLetter d], by simp [hexLetter], by simp [hexLetter]⟩
  · obtain ⟨ds, hmap, hvalue⟩ := ih
    refine ⟨ds ++ [hexLetter d], by simp [hmap, hexLetter], ?_⟩
    rw [List.map_append, List.foldl_append, hvalue]
    rfl

/-- Zeros in front of a number do not change it. -/
theorem foldl_zeros (k : Nat) :
    (List.replicate k 0).foldl (fun sum digit => 16 * sum + digit) 0 = 0 := by
  induction k with
  | zero => rfl
  | succ k ih => simpa [List.replicate_succ] using ih

theorem exists_hexPhrase (n : UInt32) :
    ∃ d : HexPhrase, d.text = (Numeral.hexLower 6 n.toNat).toList ∧ d.value = n := by
  obtain ⟨ds, hmap, hvalue⟩ := exists_hexLetters n.toNat
  have hne : ds ≠ [] := by
    rintro rfl
    exact Nat.toDigits_ne_nil hmap.symm
  have hlength : ds.length ≤ 8 := by
    have hbound : (Nat.toDigits 16 n.toNat).length ≤ 8 :=
      (Nat.length_toDigits_le_iff (by decide) (by decide)).mpr n.toNat_lt
    rwa [← hmap, List.length_map] at hbound
  refine ⟨⟨List.replicate (6 - ds.length) (hexLetter 0) ++ ds, by simp [hne], by simp; omega⟩, ?_, ?_⟩
  · rw [HexPhrase.text, Numeral.hexLower, String.toList_ofList, ← hmap, List.leftpad,
      List.map_append, List.length_map, List.map_replicate]
    rfl
  · have hzero : (hexLetter 0).value = 0 := rfl
    rw [HexPhrase.value, List.map_append, List.map_replicate, hzero, List.foldl_append, foldl_zeros,
      hvalue]
    simp

/-! ### Rows -/

theorem Size.mem_inEitherCase_letters (size : Size) :
    (size.letter, size) ∈ inEitherCase Size.letters := by
  cases size with
  | bit i => revert i; decide
  | _ => decide

/-- The mark of a read that has one. -/
theorem exists_mark {kind : OperandKind} (hunused : kind ≠ .unused) (hliteral : kind ≠ .literal) :
    ∃ mark : Option (Letter OperandKind.marks),
      optionalText (fun m => [m.char]) mark = kind.mark.toList ∧
        (mark.map Letter.value).getD .current = kind := by
  cases kind with
  | unused => exact absurd rfl hunused
  | literal => exact absurd rfl hliteral
  | current => exact ⟨none, rfl, rfl⟩
  | previous => exact ⟨some ⟨'d', .previous, by decide⟩, rfl, rfl⟩
  | prior => exact ⟨some ⟨'p', .prior, by decide⟩, rfl, rfl⟩
  | bcd => exact ⟨some ⟨'b', .bcd, by decide⟩, rfl, rfl⟩

/-- The text of a read. -/
theorem Operand.toList_wire_of_ne {o : Operand} (hunused : o.kind ≠ .unused)
    (hliteral : o.kind ≠ .literal) :
    o.wire.toList = o.kind.mark.toList ++
      '0' :: 'x' :: o.size.letter :: (Numeral.hexLower 6 o.value.toNat).toList := by
  obtain ⟨kind, size, value⟩ := o
  cases kind with
  | unused => exact absurd rfl hunused
  | literal => exact absurd rfl hliteral
  | _ => simp [wire, String.toList_append]

theorem exists_operandPhrase {o : Operand} (ho : o.IsRepresentable) :
    ∃ d : OperandPhrase, d.text = o.wire.toList ∧ d.operand = o := by
  obtain ⟨hunused, hsize⟩ := ho
  by_cases hliteral : o.kind = .literal
  · obtain ⟨n, htext, hvalue⟩ := exists_decimalPhrase o.value.toNat
    have hsigned : n.signed false = o.value.toNat := congrArg Nat.cast hvalue
    have hlt := o.value.toNat_lt
    refine ⟨.decimal false n (by rw [DecimalPhrase.IsLiteral]; omega), ?_, ?_⟩
    · rw [Operand.wire, hliteral]
      exact htext
    · have hword : UInt32.ofInt o.value.toNat = o.value := by
        have hmod : ((o.value.toNat : Int) % 4294967296).toNat = o.value.toNat := by omega
        simp [UInt32.ofInt, hmod]
      rw [OperandPhrase.operand, hsigned, hword, Operand.literal, ← hliteral, ← hsize hliteral]
  · obtain ⟨mark, hmark, hkind⟩ := exists_mark hunused hliteral
    obtain ⟨n, htext, hvalue⟩ := exists_hexPhrase o.value
    refine ⟨.read mark ⟨'x', by decide⟩ (some ⟨o.size.letter, o.size,
      o.size.mem_inEitherCase_letters⟩) n, ?_, ?_⟩
    · rw [Operand.toList_wire_of_ne hunused hliteral, ← hmark, ← htext]
      rfl
    · change (⟨(mark.map Letter.value).getD .current, o.size, n.value⟩ : Operand) = o
      rw [hkind, hvalue]

theorem exists_operatorPhrase {op : Operator} (hop : op ≠ .absent) :
    ∃ d : OperatorPhrase, d.text = op.wire.toList ∧ d.operator = op := by
  cases op with
  | absent => exact absurd rfl hop
  | compare r =>
    cases r with
    | eq => exact ⟨.equal, rfl, rfl⟩
    | ne => exact ⟨.notEqual, rfl, rfl⟩
    | lt => exact ⟨.less, rfl, rfl⟩
    | le => exact ⟨.lessEqual, rfl, rfl⟩
    | gt => exact ⟨.greater, rfl, rfl⟩
    | ge => exact ⟨.greaterEqual, rfl, rfl⟩
  | arith a =>
    cases a with
    | mul => exact ⟨.times, rfl, rfl⟩
    | div => exact ⟨.divide, rfl, rfl⟩
    | mask => exact ⟨.mask, rfl, rfl⟩

/-! The three parts of a row that may be missing. -/

namespace Row

/-- The flag of a role and its colon. -/
def flagText (role : Role) : List Char :=
  match role.flag? with
  | some letter => [letter, ':']
  | none => []

def sideText (r : Row) : List Char :=
  if r.operator = .absent then [] else r.operator.wire.toList ++ r.right.wire.toList

def hitsText (hits : UInt32) : List Char :=
  if hits > 0 then '.' :: (Numeral.decimal hits.toNat).toList ++ ['.'] else []

theorem toList_wire (r : Row) :
    r.wire.toList = flagText r.role ++ (r.left.wire.toList ++ (sideText r ++ hitsText r.hits)) := by
  have hside : (if r.operator = .absent then "" else r.operator.wire ++ r.right.wire).toList =
      sideText r := by
    rw [sideText]
    split <;> simp
  have hhits : (if r.hits > 0 then "." ++ Numeral.decimal r.hits.toNat ++ "." else "").toList =
      hitsText r.hits := by
    rw [hitsText]
    split <;> simp
  rw [Row.wire, String.toList_append, String.toList_append, String.toList_append, hside, hhits,
    flagText]
  cases r.role.flag? <;> simp

theorem exists_flag (role : Role) :
    ∃ flag : Option (Letter Role.flags),
      optionalText (fun f => [f.char, ':']) flag = flagText role ∧
        (flag.map Letter.value).getD .plain = role := by
  by_cases hplain : role = .plain
  · subst hplain
    exact ⟨none, rfl, rfl⟩
  · obtain ⟨letter, hflag, hlisted⟩ : ∃ letter, role.flag? = some letter ∧
        (letter, role) ∈ inEitherCase Role.flags := by
      cases role <;> first | exact absurd rfl hplain | exact ⟨_, rfl, by decide⟩
    exact ⟨some ⟨letter, role, hlisted⟩, by rw [flagText, hflag]; rfl, rfl⟩

theorem exists_side {r : Row} (hr : r.IsRepresentable) :
    ∃ side : Option SidePhrase, optionalText SidePhrase.text side = sideText r ∧
      (side.map SidePhrase.side).getD (.absent, .missing) = (r.operator, r.right) := by
  obtain ⟨-, hright⟩ := hr
  by_cases hop : r.operator = .absent
  · rw [if_pos hop] at hright
    exact ⟨none, by rw [sideText, if_pos hop]; rfl, by rw [hop, hright]; rfl⟩
  · rw [if_neg hop] at hright
    obtain ⟨op, hopText, hopValue⟩ := exists_operatorPhrase hop
    obtain ⟨right, hrightText, hrightValue⟩ := exists_operandPhrase hright
    refine ⟨some ⟨op, right⟩, ?_, ?_⟩
    · rw [sideText, if_neg hop, ← hopText, ← hrightText]
      rfl
    · rw [← hopValue, ← hrightValue]
      rfl

theorem exists_hits (target : UInt32) :
    ∃ hits : Option HitsPhrase, optionalText HitsPhrase.text hits = hitsText target ∧
      (hits.map HitsPhrase.hits).getD 0 = target := by
  by_cases htarget : target > 0
  · obtain ⟨n, htext, hvalue⟩ := exists_decimalPhrase target.toNat
    refine ⟨some ⟨('.', '.'), by decide, n, hvalue ▸ target.toNat_lt_size⟩, ?_, ?_⟩
    · rw [hitsText, if_pos htarget, ← htext]
      rfl
    · change n.value.toUInt32 = target
      rw [hvalue]
      simp
  · rw [gt_iff_lt, UInt32.pos_iff_ne_zero, Decidable.not_not] at htarget
    subst htarget
    exact ⟨none, rfl, rfl⟩

/-- **A row that can be represented has a phrase.** -/
theorem exists_phrase {r : Row} (hr : r.IsRepresentable) :
    ∃ d : RowPhrase, d.text = r.wire.toList ∧ d.row = r := by
  obtain ⟨flag, hflagText, hflag⟩ := exists_flag r.role
  obtain ⟨left, hleftText, hleft⟩ := exists_operandPhrase hr.1
  obtain ⟨side, hsideText, hside⟩ := exists_side hr
  obtain ⟨hits, hhitsText, hhits⟩ := exists_hits r.hits
  refine ⟨⟨flag, left, side, hits⟩, ?_, ?_⟩
  · rw [toList_wire, ← hflagText, ← hleftText, ← hsideText, ← hhitsText]
    rfl
  · simp only [RowPhrase.row, hflag, hleft, hside, hhits]

end Row

/-! ### Groups -/

/-- Where each of several things has a phrase, so have all of them one behind another. -/
theorem exists_phrases {σ α : Type} {text : σ → List Char} {value : σ → α} {wire : α → List Char}
    {as : List α} (h : ∀ a ∈ as, ∃ d, text d = wire a ∧ value d = a) :
    ∃ ds : List σ, ds.flatMap text = as.flatMap wire ∧ ds.map value = as := by
  induction as with
  | nil => exact ⟨[], rfl, rfl⟩
  | cons a as ih =>
    obtain ⟨ha, has⟩ := List.forall_mem_cons.mp h
    obtain ⟨d, htext, hvalue⟩ := ha
    obtain ⟨ds, htexts, hvalues⟩ := ih has
    exact ⟨d :: ds, by rw [List.flatMap_cons, List.flatMap_cons, htext, htexts],
      by rw [List.map_cons, hvalue, hvalues]⟩

theorem Row.toList_groupWire (r : Row) (rows : List Row) :
    (Row.groupWire (r :: rows)).toList =
      r.wire.toList ++ rows.flatMap fun r => '_' :: r.wire.toList := by
  induction rows generalizing r with
  | nil => simp [Row.groupWire]
  | cons r' rows ih =>
    have hrest := ih r'
    rw [Row.groupWire, String.toList_intercalate] at hrest ⊢
    simp only [List.map_cons, List.intercalate_cons_cons] at hrest ⊢
    rw [hrest]
    simp

theorem exists_groupPhrase {rows : List Row} (hrows : Row.AreRepresentable rows) :
    ∃ g : GroupPhrase, g.text = (Row.groupWire rows).toList ∧ g.rows = rows := by
  obtain ⟨hne, hrows⟩ := hrows
  obtain ⟨r, rows, rfl⟩ := List.exists_cons_of_ne_nil hne
  obtain ⟨hr, hrows⟩ := List.forall_mem_cons.mp hrows
  obtain ⟨first, hfirstText, hfirst⟩ := Row.exists_phrase hr
  have hmore : ∀ r ∈ rows, ∃ d : RowPhrase,
      d.behindUnderscore = '_' :: r.wire.toList ∧ d.row = r := by
    intro r hr
    obtain ⟨d, htext, hrow⟩ := Row.exists_phrase (hrows r hr)
    exact ⟨d, by rw [RowPhrase.behindUnderscore, htext], hrow⟩
  obtain ⟨more, hmoreText, hmore⟩ := exists_phrases hmore
  refine ⟨⟨first, more⟩, ?_, ?_⟩
  · rw [Row.toList_groupWire, GroupPhrase.text, hfirstText, hmoreText]
  · rw [GroupPhrase.rows, hfirst, hmore]

theorem exists_alternatePhrases {groups : List (List Row)}
    (h : ∀ rows ∈ groups, Row.AreRepresentable rows) :
    ∃ ds : List AlternatePhrase,
      ds.flatMap AlternatePhrase.text =
        groups.flatMap (fun rows => 'S' :: (Row.groupWire rows).toList) ∧
      ds.map (fun a => a.group.rows) = groups := by
  refine exists_phrases fun rows hrows => ?_
  obtain ⟨g, htext, hg⟩ := exists_groupPhrase (h rows hrows)
  exact ⟨⟨⟨'S', by decide⟩, g⟩, by rw [← htext]; rfl, hg⟩

/-! ## The round trip -/

namespace Trigger

/-- The core as it is written: in front of alternates, `1=1` holds the place of an empty one. -/
def writtenCore (t : Trigger) : List Row :=
  if t.core.isEmpty && !t.alternates.isEmpty then [Row.alwaysTrue] else t.core

theorem toList_wire (t : Trigger) :
    t.wire.toList = (Row.groupWire t.writtenCore).toList ++
      t.alternates.flatMap fun rows => 'S' :: (Row.groupWire rows).toList := by
  rw [wire, String.toList_append, String.toList_join, List.flatMap_map]
  simp only [String.toList_append]
  rfl

/-- The place of an empty core is seen again, and no other core is taken for it. -/
theorem writtenCore_read {t : Trigger} (ht : t.IsRepresentable) :
    (if !t.alternates.isEmpty && t.writtenCore == [Row.alwaysTrue] then [] else t.writtenCore) =
      t.core := by
  by_cases halternates : t.alternates = []
  · simp [writtenCore, halternates]
  · have hempty : t.alternates.isEmpty = false := by simpa using halternates
    have hcore := ht.core halternates
    by_cases hnil : t.core = []
    · simp [writtenCore, hempty, hnil]
    · have hfull : t.core.isEmpty = false := by simpa using hnil
      simp [writtenCore, hempty, hfull, hcore]

/-- Only the empty trigger is written without rows. -/
theorem eq_empty_of_writtenCore {t : Trigger} (h : t.writtenCore = []) : t = {} := by
  obtain ⟨core, alternates⟩ := t
  unfold writtenCore at h
  split at h
  · cases h
  · rename_i hplace
    obtain rfl : core = [] := h
    obtain rfl : alternates = [] := by simpa using hplace
    rfl

/-- **Every trigger that can be represented has a phrase.** -/
theorem exists_triggerPhrase {t : Trigger} (ht : t.IsRepresentable) :
    ∃ d : TriggerPhrase, d.text = t.wire.toList ∧ d.trigger = t := by
  have hgroups : ∀ rows ∈ t.alternates, Row.AreRepresentable rows := by
    refine fun rows hrows => ⟨ht.alternates rows hrows, fun r hr => ht.rows r ?_⟩
    exact List.mem_flatten.mpr ⟨rows, List.mem_cons_of_mem _ hrows, hr⟩
  have hcore : ∀ r ∈ t.writtenCore, r.IsRepresentable := by
    intro r hr
    unfold writtenCore at hr
    split at hr
    · obtain rfl := List.mem_singleton.mp hr
      exact Row.isRepresentable_constant true
    · exact ht.rows r (List.mem_append_left _ hr)
  by_cases hnil : t.writtenCore = []
  · rw [eq_empty_of_writtenCore hnil]
    exact ⟨⟨none, []⟩, rfl, rfl⟩
  · obtain ⟨core, hcoreText, hrows⟩ := exists_groupPhrase ⟨hnil, hcore⟩
    obtain ⟨alternates, halternatesText, halternates⟩ := exists_alternatePhrases hgroups
    refine ⟨⟨some core, alternates⟩, ?_, ?_⟩
    · rw [toList_wire, ← hcoreText, ← halternatesText]
      rfl
    · have hempty : alternates.isEmpty = t.alternates.isEmpty := by
        rw [← halternates, List.isEmpty_map]
      simp only [TriggerPhrase.trigger, hempty, halternates, Option.map_some, Option.getD_some, hrows,
        writtenCore_read ht]

/-- **Every trigger that can be represented is read back.** -/
theorem read_wire {t : Trigger} (ht : t.IsRepresentable) : Trigger.read t.wire = .ok t := by
  obtain ⟨d, htext, htrigger⟩ := exists_triggerPhrase ht
  rw [read_eq_ok_iff, ← htext, Scanner.trigger_text, htrigger]

theorem isRepresentable_of_read {text : String} {t : Trigger} (h : Trigger.read text = .ok t) :
    t.IsRepresentable := by
  obtain ⟨d, -, rfl⟩ := Scanner.gives_trigger _ _ _ ((read_eq_ok_iff text t).mp h)
  exact d.isRepresentable

/-- **Wire text expresses exactly the representable triggers.**  A trigger is read back from its
own text if and only if it can be represented, and only such triggers are read from any text. -/
theorem read_wire_iff (t : Trigger) :
    (Trigger.read t.wire = .ok t ↔ t.IsRepresentable) ∧
      ∀ text, Trigger.read text = .ok t → t.IsRepresentable :=
  ⟨⟨isRepresentable_of_read, read_wire⟩, fun _ => isRepresentable_of_read⟩

/-- `1=1SI:0xH000010_R:d0xU000020<5.3.S1=1` -/
def pointedReset : Trigger where
  alternates :=
    [[Row.modifier .addAddress (.memory .byte 0x10),
      { left := ⟨.previous, .highNibble, 0x20⟩, operator := .compare .lt, right := .literal 5,
        role := .resetIf, hits := 3 }],
      [.alwaysTrue]]

/-- The trigger comes back from its text; with the `1=1` of that text in its core it would not. -/
theorem read_wire_iff_pointedReset :
    pointedReset.IsRepresentable ∧ Trigger.read pointedReset.wire = .ok pointedReset ∧
      Trigger.read (wire { pointedReset with core := [.alwaysTrue] }) ≠
        .ok { pointedReset with core := [.alwaysTrue] } := by
  have hrepresentable : pointedReset.IsRepresentable := ⟨by decide, by decide, by decide⟩
  have hread := (read_wire_iff pointedReset).1.mpr hrepresentable
  refine ⟨(read_wire_iff pointedReset).2 _ hread, hread, fun h => ?_⟩
  exact ((read_wire_iff _).1.mp h).core (by decide) rfl

end Trigger
end MemoryTrigger
