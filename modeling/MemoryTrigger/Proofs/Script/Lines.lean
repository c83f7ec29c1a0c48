import Mathlib.Data.List.Chain
import MemoryTrigger.Proofs.Script.Wording
import MemoryTrigger.Script.Layout

/-! # How conditions stand on lines

A wrapped script is a list of lines, each with a margin and some of the conditions in order
(`ScriptLine`).  Filling a page puts every condition on the last line or opens a new one
(`Page.Shows.put`), so that the lines are as full as the width allows (`IsLayout`).

What fits is decided before it is known that more conditions follow: a line that is broken later
gets the sign ` &&` behind it, for which no room was kept (`Trigger.utf8ByteSize_lines_render`).  Apart
from that, wrapping adds nothing but the margin, and the lines put together again are the script on
one line (`Trigger.unindented_lines_render`).  There is such a text unless the margin is longer than
any text can be (`Trigger.render?_eq_some_iff`). -/
namespace MemoryTrigger

/-! ## Texts as lines -/

/-- The lines of a text. -/
def linesOf (text : String) : List String := (text.toList.splitOn '\n').map String.ofList

theorem linesOf_intercalate {lines : List String} (hne : lines ≠ [])
    (h : ∀ line ∈ lines, IsOneLine line) : linesOf ("\n".intercalate lines) = lines := by
  have hsplit : ("\n".intercalate lines).toList.splitOn '\n' = lines.map String.toList := by
    rw [String.toList_intercalate]
    exact List.splitOn_intercalate '\n' (List.forall_mem_map.mpr h) (by simpa using hne)
  rw [linesOf, hsplit, List.map_map]
  simp [Function.comp_def]

theorem intercalate_append (separator : String) {front rest : List String} (hfront : front ≠ [])
    (hrest : rest ≠ []) : separator.intercalate (front ++ rest) =
      separator.intercalate front ++ separator ++ separator.intercalate rest := by
  induction front with
  | nil => exact absurd rfl hfront
  | cons first front ih =>
    cases front with
    | nil =>
      obtain ⟨second, rest, rfl⟩ := List.exists_cons_of_ne_nil hrest
      simp
    | cons second front =>
      rw [List.cons_append, List.cons_append, String.intercalate_cons_cons, ← List.cons_append,
        ih (List.cons_ne_nil _ _), String.intercalate_cons_cons]
      simp only [String.append_assoc]

/-- Joined conditions without a character are empty. -/
theorem eq_empty_of_intercalate_eq_empty {conditions : List String}
    (h : " && ".intercalate conditions = "") : ∀ condition ∈ conditions, condition = "" := by
  cases conditions with
  | nil => simp
  | cons first rest =>
    cases rest with
    | nil => simpa using h
    | cons second rest =>
      rw [String.intercalate_cons_cons, String.append_eq_empty_iff, String.append_eq_empty_iff] at h
      exact absurd h.1.2 (by decide)

/-- A line of a script, without the sign that more conditions follow. -/
structure ScriptLine where
  /-- Blanks in front. -/
  margin : Nat
  conditions : List String
  deriving DecidableEq, Repr

namespace ScriptLine

/-- The conditions of a line. -/
def body (l : ScriptLine) : String := " && ".intercalate l.conditions

def text (l : ScriptLine) : String := String.ofList (List.replicate l.margin ' ') ++ l.body

theorem text_singleton (margin : Nat) (segment : String) :
    text ⟨margin, [segment]⟩ = String.ofList (List.replicate margin ' ') ++ segment := by
  rw [text, body, String.intercalate_singleton]

theorem text_append {l : ScriptLine} (hne : l.conditions ≠ []) (segment : String) :
    text ⟨l.margin, l.conditions ++ [segment]⟩ = l.text ++ " && " ++ segment := by
  simp only [text, body, intercalate_append " && " hne (List.cons_ne_nil segment []),
    String.intercalate_singleton, String.append_assoc]

end ScriptLine

/-! ## Layouts -/

/-- **How conditions are laid out**: in order, on lines that hold at least one, so that no line with
two conditions is wider than allowed, and none is left where the next condition would have fit.  A
condition without text may be left out where it would open a line. -/
structure IsLayout (options : RenderOptions) (segments : List String) (lines : List ScriptLine) :
    Prop where
  margins : lines.map ScriptLine.margin = 0 :: List.replicate (lines.length - 1) options.indent
  filled : ∀ l ∈ lines, l.conditions ≠ []
  order : (lines.flatMap ScriptLine.conditions).Sublist segments
  complete : (lines.flatMap ScriptLine.conditions).filter (fun s => !s.isEmpty) =
    segments.filter (fun s => !s.isEmpty)
  fits : ∀ l ∈ lines, 1 < l.conditions.length → l.text.utf8ByteSize ≤ options.width
  tight : lines.IsChain fun l next => ∀ segment ∈ next.conditions.head?,
    options.width < l.text.utf8ByteSize + " && ".utf8ByteSize + segment.utf8ByteSize

/-- The lines of a page, the last of which is being filled. -/
structure Page.Shows (options : RenderOptions) (segments : List String) (page : Page)
    (full : List ScriptLine) (last : ScriptLine) : Prop where
  lines_eq : page.lines = full.map fun l => l.text ++ " &&"
  line_eq : page.line = last.text
  layout : IsLayout options segments (full ++ [last])

namespace IsLayout
variable {options : RenderOptions} {segments : List String} {full : List ScriptLine}
  {last : ScriptLine}

theorem margins_cons {l : ScriptLine} {rest : List ScriptLine}
    (h : IsLayout options segments (l :: rest)) :
    l.margin = 0 ∧ ∀ l' ∈ rest, l'.margin = options.indent := by
  obtain ⟨hfirst, hrest⟩ := List.cons_eq_cons.mp h.margins
  refine ⟨hfirst, fun l' hl' => ?_⟩
  have hmem : l'.margin ∈ rest.map ScriptLine.margin := List.mem_map_of_mem hl'
  rw [hrest] at hmem
  exact List.eq_of_mem_replicate hmem

theorem margin_le {lines : List ScriptLine} (h : IsLayout options segments lines) {l : ScriptLine}
    (hl : l ∈ lines) : l.margin ≤ options.indent := by
  have hmem : l.margin ∈ lines.map ScriptLine.margin := List.mem_map_of_mem hl
  rw [h.margins] at hmem
  rcases List.mem_cons.mp hmem with hzero | hmem
  · omega
  · exact Nat.le_of_eq (List.eq_of_mem_replicate hmem)

theorem margin_last (h : IsLayout options segments (full ++ [last])) :
    last.margin = if full.isEmpty then 0 else options.indent := by
  cases full with
  | nil => exact h.margins_cons.1
  | cons l full => exact h.margins_cons.2 last (by simp)

/-- The layout of a first condition. -/
theorem single (options : RenderOptions) (segment : String) :
    IsLayout options [segment] [⟨0, [segment]⟩] where
  margins := rfl
  filled := by simp
  order := List.Sublist.refl _
  complete := rfl
  fits := by simp
  tight := List.isChain_singleton _

/-- One more condition, in place of conditions without text that are alone on the last line. -/
theorem replace (h : IsLayout options segments (full ++ [last]))
    (hlast : ∀ condition ∈ last.conditions, condition = "") (segment : String) :
    IsLayout options (segments ++ [segment]) (full ++ [⟨last.margin, [segment]⟩]) := by
  have hsplit : (full ++ [last]).flatMap ScriptLine.conditions =
      full.flatMap ScriptLine.conditions ++ last.conditions := by simp
  obtain ⟨hfull, hfilled⟩ := List.forall_mem_append.mp h.filled
  refine ⟨?_, ?_, ?_, ?_, ?_, ?_⟩
  · simpa using h.margins
  · exact List.forall_mem_append.mpr ⟨hfull, by simp⟩
  · rw [List.flatMap_append]
    refine List.Sublist.append ?_ (by simp)
    exact (List.sublist_append_left _ _).trans (hsplit ▸ h.order)
  · have hnone : last.conditions.filter (fun s => !s.isEmpty) = [] := by
      rw [List.filter_eq_nil_iff]
      intro condition hcondition
      simp [hlast condition hcondition]
    have hcomplete := h.complete
    rw [hsplit, List.filter_append, hnone, List.append_nil] at hcomplete
    rw [List.flatMap_append, List.filter_append, hcomplete, List.filter_append]
    simp
  · exact List.forall_mem_append.mpr ⟨(List.forall_mem_append.mp h.fits).1, by simp⟩
  · obtain ⟨hchain, -, hbreak⟩ := List.isChain_append.mp h.tight
    refine List.isChain_append.mpr ⟨hchain, List.isChain_singleton _, ?_⟩
    rintro l hl _ ⟨⟩ _ ⟨⟩
    obtain ⟨condition, rest, hconditions⟩ :=
      List.exists_cons_of_ne_nil (hfilled last List.mem_cons_self)
    have hempty : condition.utf8ByteSize = 0 :=
      String.utf8ByteSize_eq_zero_iff.mpr (hlast condition (hconditions ▸ List.mem_cons_self))
    have hwide := hbreak l hl last rfl condition (by rw [hconditions]; rfl)
    omega

/-- One more condition on the last line, where it fits. -/
theorem extend (h : IsLayout options segments (full ++ [last])) {segment : String}
    (hfits : last.text.utf8ByteSize + " && ".utf8ByteSize + segment.utf8ByteSize ≤ options.width) :
    IsLayout options (segments ++ [segment])
      (full ++ [⟨last.margin, last.conditions ++ [segment]⟩]) := by
  have hsplit : (full ++ [ScriptLine.mk last.margin (last.conditions ++ [segment])]).flatMap
      ScriptLine.conditions = (full ++ [last]).flatMap ScriptLine.conditions ++ [segment] := by simp
  obtain ⟨hfull, hfilled⟩ := List.forall_mem_append.mp h.filled
  refine ⟨?_, ?_, ?_, ?_, ?_, ?_⟩
  · simpa using h.margins
  · exact List.forall_mem_append.mpr ⟨hfull, by simp⟩
  · rw [hsplit]
    exact h.order.append (List.Sublist.refl _)
  · rw [hsplit, List.filter_append, h.complete, List.filter_append]
  · refine List.forall_mem_append.mpr ⟨(List.forall_mem_append.mp h.fits).1, ?_⟩
    refine List.forall_mem_singleton.mpr fun _ => ?_
    rw [ScriptLine.text_append (hfilled last List.mem_cons_self), String.utf8ByteSize_append,
      String.utf8ByteSize_append]
    exact hfits
  · obtain ⟨hchain, -, hbreak⟩ := List.isChain_append.mp h.tight
    refine List.isChain_append.mpr ⟨hchain, List.isChain_singleton _, ?_⟩
    rintro l hl _ ⟨⟩ condition hcondition
    refine hbreak l hl last rfl condition ?_
    rwa [List.head?_append_of_ne_nil _ (hfilled last List.mem_cons_self)] at hcondition

/-- One more condition on a line of its own, where it does not fit. -/
theorem wrap (h : IsLayout options segments (full ++ [last])) {segment : String}
    (hwide : options.width <
      last.text.utf8ByteSize + " && ".utf8ByteSize + segment.utf8ByteSize) :
    IsLayout options (segments ++ [segment])
      (full ++ [last] ++ [⟨options.indent, [segment]⟩]) := by
  have hsplit : (full ++ [last] ++ [ScriptLine.mk options.indent [segment]]).flatMap
      ScriptLine.conditions = (full ++ [last]).flatMap ScriptLine.conditions ++ [segment] := by simp
  refine ⟨?_, ?_, ?_, ?_, ?_, ?_⟩
  · rw [List.map_append, h.margins]
    simp [List.replicate_succ']
  · exact List.forall_mem_append.mpr ⟨h.filled, by simp⟩
  · rw [hsplit]
    exact h.order.append (List.Sublist.refl _)
  · rw [hsplit, List.filter_append, h.complete, List.filter_append]
  · exact List.forall_mem_append.mpr ⟨h.fits, by simp⟩
  · refine List.isChain_append.mpr ⟨h.tight, List.isChain_singleton _, ?_⟩
    rintro l hl _ ⟨⟩ _ ⟨⟩
    rw [List.getLast?_append_of_ne_nil _ (List.cons_ne_nil _ _)] at hl
    cases hl
    exact hwide

end IsLayout

/-! ## Filling a page -/

namespace Page.Shows
variable {options : RenderOptions} {segments : List String} {page : Page} {full : List ScriptLine}
  {last : ScriptLine}

/-- **One more condition is put on the page** in one of three ways. -/
theorem put (h : Shows options segments page full last) (segment : String) :
    ∃ full' last', Shows options (segments ++ [segment]) (page.put options segment)
      full' last' := by
  unfold Page.put
  rw [h.lines_eq, h.line_eq]
  split
  · rename_i hempty
    rw [String.isEmpty_iff, ScriptLine.text, String.append_eq_empty_iff] at hempty
    refine ⟨full, ⟨last.margin, [segment]⟩, rfl, ?_,
      h.layout.replace (eq_empty_of_intercalate_eq_empty hempty.2) segment⟩
    rw [ScriptLine.text_singleton, h.layout.margin_last, List.isEmpty_map]
    split
    · exact String.empty_append.symm
    · rfl
  · split
    · rename_i hwide
      exact ⟨full ++ [last], ⟨options.indent, [segment]⟩, by simp,
        (ScriptLine.text_singleton _ _).symm, h.layout.wrap hwide⟩
    · rename_i hfits
      refine ⟨full, ⟨last.margin, last.conditions ++ [segment]⟩, rfl, ?_,
        h.layout.extend (Nat.le_of_not_lt hfits)⟩
      exact (ScriptLine.text_append (h.layout.filled last (by simp)) segment).symm

theorem foldl (h : Shows options segments page full last) (more : List String) :
    ∃ full' last', Shows options (segments ++ more) (more.foldl (Page.put options) page)
      full' last' := by
  induction more generalizing segments page full last with
  | nil => exact ⟨full, last, by simpa using h⟩
  | cons segment more ih =>
    obtain ⟨full', last', hput⟩ := h.put segment
    obtain ⟨full'', last'', hall⟩ := ih hput
    exact ⟨full'', last'', by simpa using hall⟩

end Page.Shows

/-- **A page holds a layout of all the conditions that were put on it.** -/
theorem Page.exists_shows (options : RenderOptions) {segments : List String} (hne : segments ≠ []) :
    ∃ full last, Page.Shows options segments (segments.foldl (Page.put options) {}) full last := by
  obtain ⟨first, rest, rfl⟩ := List.exists_cons_of_ne_nil hne
  have hfirst : Page.Shows options [first] (Page.put options {} first) [] ⟨0, [first]⟩ :=
    ⟨rfl, by rw [ScriptLine.text_singleton]; exact String.empty_append.symm, .single _ _⟩
  exact hfirst.foldl rest

namespace IsLayout
variable {options : RenderOptions} {segments : List String} {lines : List ScriptLine}

theorem isOneLine_text (h : IsLayout options segments lines)
    (hsegments : ∀ segment ∈ segments, IsOneLine segment) {l : ScriptLine} (hl : l ∈ lines) :
    IsOneLine l.text := by
  have hmargin : IsOneLine (String.ofList (List.replicate l.margin ' ')) := by
    simp [IsOneLine]
  refine (isOneLine_append _ _).mpr ⟨hmargin, isOneLine_intercalate (by decide) fun s hs => ?_⟩
  exact hsegments s (h.order.subset (List.mem_flatMap.mpr ⟨l, hl, hs⟩))

/-- Nothing is left out where every condition has a text. -/
theorem flatMap_conditions (h : IsLayout options segments lines)
    (hsegments : ∀ segment ∈ segments, segment ≠ "") :
    lines.flatMap ScriptLine.conditions = segments := by
  have hall (texts : List String) (htexts : ∀ text ∈ texts, text ∈ segments) :
      texts.filter (fun s => !s.isEmpty) = texts := by
    refine List.filter_eq_self.mpr fun text htext => ?_
    simpa using hsegments text (htexts text htext)
  have hcomplete := h.complete
  rwa [hall _ h.order.subset, hall segments fun _ htext => htext] at hcomplete

end IsLayout

namespace Trigger
variable (options : RenderOptions)

/-- **The lines of a wrapped script are a layout of its conditions**, with a sign behind every line
but the last. -/
theorem exists_layout_render (hwidth : 0 < options.width) (t : Trigger) :
    ∃ full last, linesOf (t.render options) = (full.map fun l => l.text ++ " &&") ++ [last.text] ∧
      IsLayout options (t.segments options.numberFormat) (full ++ [last]) := by
  obtain ⟨full, last, hpage⟩ := Page.exists_shows options (t.segments_ne_nil options.numberFormat)
  refine ⟨full, last, ?_, hpage.layout⟩
  have hone (l : ScriptLine) (hl : l ∈ full ++ [last]) : IsOneLine l.text :=
    hpage.layout.isOneLine_text (t.isOneLine_of_mem_segments options.numberFormat) hl
  rw [render, if_neg (Nat.ne_of_gt hwidth), Page.finish, hpage.lines_eq, hpage.line_eq]
  refine linesOf_intercalate (by simp) (List.forall_mem_append.mpr ⟨?_, ?_⟩)
  · refine List.forall_mem_map.mpr fun l hl => (isOneLine_append _ _).mpr ⟨?_, by decide⟩
    exact hone l (List.mem_append_left _ hl)
  · exact List.forall_mem_singleton.mpr (hone last (by simp))

/-- **When there is a script text**: always on a single line, and on several lines as long as a text
can hold the margin.  It is then the text that the results about lines speak of. -/
theorem render?_eq_some_iff {text : String} (t : Trigger) :
    t.render? options = some text ↔
      (options.width = 0 ∨ options.indent < 0x8000000000000000) ∧ t.render options = text := by
  simp [render?, RenderOptions.isFeasible]

/-- Rendering fails for every trigger or for none. -/
theorem render?_eq_none_iff (t : Trigger) :
    t.render? options = none ↔ 0 < options.width ∧ 0x8000000000000000 ≤ options.indent := by
  simp [render?, RenderOptions.isFeasible, Nat.pos_iff_ne_zero]

/-- The lines of a wrapped script that has a text are a layout with margins that a text can hold. -/
theorem exists_layout_of_render? (hwidth : 0 < options.width) {t : Trigger} {text : String}
    (h : t.render? options = some text) :
    ∃ full last, linesOf text = (full.map fun l => l.text ++ " &&") ++ [last.text] ∧
      IsLayout options (t.segments options.numberFormat) (full ++ [last]) ∧
      ∀ l ∈ full ++ [last], l.margin < 0x8000000000000000 := by
  obtain ⟨hfeasible, rfl⟩ := (t.render?_eq_some_iff options).mp h
  have hindent := hfeasible.resolve_left (Nat.ne_of_gt hwidth)
  obtain ⟨full, last, hlines, hlayout⟩ := t.exists_layout_render options hwidth
  exact ⟨full, last, hlines, hlayout, fun l hl => Nat.lt_of_le_of_lt (hlayout.margin_le hl) hindent⟩

/-- **How wide the lines of a wrapped script are.**  The last line, if it holds more than one
condition, is no wider than allowed.  Neither is any other such line before the sign ` &&` is put
behind it; with the sign it is too wide by up to three bytes, exactly where less than three were
left. -/
theorem utf8ByteSize_lines_render (hwidth : 0 < options.width) (t : Trigger) :
    ∃ (full : List ScriptLine) (last : ScriptLine),
      linesOf (t.render options) = (full.map fun l => l.text ++ " &&") ++ [last.text] ∧
      IsLayout options (t.segments options.numberFormat) (full ++ [last]) ∧
      (1 < last.conditions.length → last.text.utf8ByteSize ≤ options.width) ∧
      ∀ l ∈ full, 1 < l.conditions.length →
        (l.text ++ " &&").utf8ByteSize ≤ options.width + 3 ∧
        (options.width < (l.text ++ " &&").utf8ByteSize ↔
          options.width - l.text.utf8ByteSize < 3) := by
  obtain ⟨full, last, hlines, hlayout⟩ := t.exists_layout_render options hwidth
  have hsign : " &&".utf8ByteSize = 3 := by decide
  refine ⟨full, last, hlines, hlayout, hlayout.fits last (by simp), fun l hl hmany => ?_⟩
  have hfits := hlayout.fits l (List.mem_append_left _ hl) hmany
  rw [String.utf8ByteSize_append, hsign]
  omega

/-- Three tests of bytes. -/
def threeBytes : Trigger where
  core := [
    .comparing (.memory .byte 1) .eq (.literal 1),
    .comparing (.memory .byte 2) .eq (.literal 2),
    .comparing (.memory .byte 3) .eq (.literal 3)]

/-- Two conditions that fill a line to its last byte are three bytes too wide once it is broken. -/
theorem utf8ByteSize_lines_render_threeBytes :
    let options : RenderOptions := { width := 42, indent := 2 }
    0 < options.width ∧
      linesOf (threeBytes.render options) =
        ["byte(0x000001) == 1 && byte(0x000002) == 2 &&", "  byte(0x000003) == 3"] ∧
      "byte(0x000001) == 1 && byte(0x000002) == 2 &&".utf8ByteSize = 45 ∧
      ∃ (full : List ScriptLine) (last : ScriptLine),
        linesOf (threeBytes.render options) = (full.map fun l => l.text ++ " &&") ++ [last.text] ∧
        ∀ l ∈ full, 1 < l.conditions.length → (l.text ++ " &&").utf8ByteSize ≤ 45 := by
  intro options
  have hlines : linesOf (threeBytes.render options) =
      ["byte(0x000001) == 1 && byte(0x000002) == 2 &&", "  byte(0x000003) == 3"] := by
    decide +kernel
  obtain ⟨full, last, hfull, -, -, hwide⟩ :=
    utf8ByteSize_lines_render options (by decide) threeBytes
  exact ⟨by decide, hlines, by decide, full, last, hfull, fun l hl hmany => (hwide l hl hmany).1⟩

end Trigger

/-! ## Lines put together again -/

/-- How many blanks a line starts with. -/
def leadingBlanks (line : String) : Nat := (line.toList.takeWhile (· == ' ')).length

/-- The lines with the first characters of every line but the first taken off. -/
def unindented (indent : Nat) : List String → List String
  | [] => []
  | first :: rest => first :: rest.map fun line => String.ofList (line.toList.drop indent)

namespace ScriptLine

theorem toList_text_append (l : ScriptLine) (sign : String) :
    (l.text ++ sign).toList = List.replicate l.margin ' ' ++ (l.body ++ sign).toList := by
  simp [text]

theorem drop_text_append (l : ScriptLine) (sign : String) :
    String.ofList ((l.text ++ sign).toList.drop l.margin) = l.body ++ sign := by
  have hlength : (List.replicate l.margin ' ').length = l.margin := List.length_replicate
  rw [toList_text_append, List.drop_left' hlength, String.ofList_toList]

theorem leadingBlanks_text_append {l : ScriptLine} (h : IsVisible l.body) (sign : String) :
    leadingBlanks (l.text ++ sign) = l.margin := by
  obtain ⟨c, hc, hblank⟩ := isVisible_iff.mp (h.append sign)
  obtain ⟨rest, hrest⟩ := List.head?_eq_some_iff.mp hc
  have hstop : (c == ' ') = false := by simpa using hblank
  rw [leadingBlanks, toList_text_append, hrest,
    List.takeWhile_append_of_pos (fun b hb => by simp [List.eq_of_mem_replicate hb]),
    List.takeWhile_cons_of_neg (by simp [hstop])]
  simp

/-- Joining the lines with blanks joins their conditions with signs between them. -/
theorem intercalate_bodies (full : List ScriptLine) (last : ScriptLine)
    (h : ∀ l ∈ full ++ [last], l.conditions ≠ []) :
    " ".intercalate ((full.map fun l => l.body ++ " &&") ++ [last.body]) =
      " && ".intercalate ((full ++ [last]).flatMap conditions) := by
  induction full with
  | nil => simp [body]
  | cons l full ih =>
    obtain ⟨hl, hrest⟩ := List.forall_mem_cons.mp h
    have hlast : (full ++ [last]).flatMap conditions ≠ [] := by
      simp [hrest last (by simp)]
    have hsign : (" &&" : String) ++ " " = " && " := by decide
    calc " ".intercalate (((l :: full).map fun l => l.body ++ " &&") ++ [last.body])
        = " ".intercalate
            ([l.body ++ " &&"] ++ ((full.map fun l => l.body ++ " &&") ++ [last.body])) := rfl
      _ = l.body ++ (" &&" ++ " ") ++ " && ".intercalate ((full ++ [last]).flatMap conditions) := by
          rw [intercalate_append " " (List.cons_ne_nil _ _) (by simp), ih hrest,
            String.intercalate_singleton]
          simp only [String.append_assoc]
      _ = " && ".intercalate (l.conditions ++ (full ++ [last]).flatMap conditions) := by
          rw [hsign, intercalate_append " && " hl hlast]
          rfl

end ScriptLine

namespace IsLayout
variable {options : RenderOptions} {segments : List String} {full : List ScriptLine}
  {last : ScriptLine}

theorem leadingBlanks_tail (h : IsLayout options segments (full ++ [last]))
    (hsegments : ∀ segment ∈ segments, IsVisible segment) :
    ∀ line ∈ ((full.map fun l => l.text ++ " &&") ++ [last.text]).tail,
      leadingBlanks line = options.indent := by
  have hbody (l : ScriptLine) (hl : l ∈ full ++ [last]) : IsVisible l.body :=
    isVisible_intercalate _ (h.filled l hl) fun s hs =>
      hsegments s (h.order.subset (List.mem_flatMap.mpr ⟨l, hl, hs⟩))
  cases full with
  | nil => simp
  | cons first full =>
    have hmargin := h.margins_cons.2
    refine List.forall_mem_append.mpr ⟨List.forall_mem_map.mpr fun l hl => ?_,
      List.forall_mem_singleton.mpr ?_⟩
    · rw [ScriptLine.leadingBlanks_text_append (hbody l (by simp [hl]))]
      exact hmargin l (List.mem_append_left _ hl)
    · rw [← String.append_empty (s := last.text),
        ScriptLine.leadingBlanks_text_append (hbody last (by simp))]
      exact hmargin last (by simp)

theorem unindented_lines (h : IsLayout options segments (full ++ [last])) :
    unindented options.indent ((full.map fun l => l.text ++ " &&") ++ [last.text]) =
      (full.map fun l => l.body ++ " &&") ++ [last.body] := by
  have hfirst {l : ScriptLine} (hl : l.margin = 0) : l.text = l.body := by
    rw [ScriptLine.text, hl]
    exact String.empty_append
  have hdrop {l : ScriptLine} (hl : l.margin = options.indent) (sign : String) :
      String.ofList ((l.text ++ sign).toList.drop options.indent) = l.body ++ sign :=
    hl ▸ l.drop_text_append sign
  cases full with
  | nil =>
    rw [List.map_nil, List.nil_append, List.map_nil, List.nil_append, unindented, List.map_nil,
      hfirst h.margins_cons.1]
  | cons first full =>
    obtain ⟨hzero, hmargin⟩ := h.margins_cons
    have hlast := hdrop (hmargin last (by simp)) ""
    rw [String.append_empty, String.append_empty] at hlast
    rw [List.map_cons, List.cons_append, unindented, hfirst hzero, List.map_append, List.map_map,
      List.map_singleton, hlast, List.map_cons, List.cons_append]
    congr 2
    refine List.map_congr_left fun l hl => ?_
    exact hdrop (hmargin l (List.mem_append_left _ hl)) " &&"

end IsLayout

namespace Trigger

/-- **Wrapping changes the layout and nothing else.**  Where no clause dangles and no operand is
missing that is written, every line but the first starts with exactly as many blanks as it is to be
indented by; and without them, joined by blanks, the lines are the script on one line. -/
theorem unindented_lines_render (options : RenderOptions) (hwidth : 0 < options.width) {t : Trigger}
    (hends : ∀ rows ∈ t.groups, Clause.EndsClause rows)
    (hwritten : ∀ r ∈ t.rows, ∀ o ∈ r.written, o.kind ≠ .unused) :
    (∀ line ∈ (linesOf (t.render options)).tail, leadingBlanks line = options.indent) ∧
      " ".intercalate (unindented options.indent (linesOf (t.render options))) =
        t.render { options with width := 0 } := by
  have hvisible := isVisible_of_mem_segments options.numberFormat hends hwritten
  obtain ⟨full, last, hlines, hlayout⟩ := t.exists_layout_render options hwidth
  rw [hlines]
  refine ⟨hlayout.leadingBlanks_tail hvisible, ?_⟩
  rw [hlayout.unindented_lines, ScriptLine.intercalate_bodies full last hlayout.filled,
    hlayout.flatMap_conditions fun segment hsegment => (hvisible segment hsegment).ne_empty]
  rfl

/-- A sum behind a pointer, a choice and a measurement with its guard, on lines of their own. -/
def wordyTrigger : Trigger where
  core := [
    { left := .memory .dword 0x1000, role := .addAddress },
    { left := .memory .byte 0x10, role := .subSource },
    .comparing (.memory .byte 0x20) .le (.literal 258),
    { Row.comparing (.memory .word 0x30) .eq (.literal 1) with role := .measured, hits := 3 },
    { Row.comparing (.memory .lowNibble 0x31) .ne (.literal 0) with role := .measuredIf }]
  alternates := [
    [{ Row.comparing (.memory .byte 1) .eq (.literal 1) with role := .orNext },
      .comparing (.memory .byte 2) .eq (.literal 2)],
    []]

theorem unindented_lines_render_wordyTrigger :
    let options : RenderOptions := { width := 40, indent := 3 }
    0 < options.width ∧ (∀ rows ∈ wordyTrigger.groups, Clause.EndsClause rows) ∧
      (∀ r ∈ wordyTrigger.rows, ∀ o ∈ r.written, o.kind ≠ .unused) ∧
      (linesOf (wordyTrigger.render options)).length = 3 ∧
      (∀ line ∈ (linesOf (wordyTrigger.render options)).tail, leadingBlanks line = 3) ∧
      " ".intercalate (unindented options.indent (linesOf (wordyTrigger.render options))) =
        wordyTrigger.render { options with width := 0 } := by
  intro options
  have hends : ∀ rows ∈ wordyTrigger.groups, Clause.EndsClause rows := by decide
  have hwritten : ∀ r ∈ wordyTrigger.rows, ∀ o ∈ r.written, o.kind ≠ .unused := by decide
  exact ⟨by decide, hends, hwritten, by decide +kernel,
    unindented_lines_render options (by decide) hends hwritten⟩

end Trigger
end MemoryTrigger
