import MemoryTrigger.Script.Phrase

/-! # Lines of script text

The conjuncts of a trigger are laid out on lines.  A line is broken only between two conjuncts, when
the next one would not fit; a conjunct that is too long for a line stands on one of its own. -/
namespace MemoryTrigger

/-- Whether a text can hold the indentation, for which it has less than `2 ^ 63` bytes.  On a single
line there is none. -/
def RenderOptions.isFeasible (options : RenderOptions) : Bool :=
  options.width == 0 || decide (options.indent < 0x8000000000000000)

/-- Finished lines, and the line that is being filled. -/
structure Page where
  lines : List String := []
  line : String := ""
  deriving DecidableEq, Repr

namespace Page

/-- A line behind a break. -/
def continuation (options : RenderOptions) (segment : String) : String :=
  String.ofList (List.replicate options.indent ' ') ++ segment

/-- Put the next segment on the page. -/
def put (options : RenderOptions) (page : Page) (segment : String) : Page :=
  if page.line.isEmpty then
    { page with line := if page.lines.isEmpty then segment else continuation options segment }
  else if page.line.utf8ByteSize + " && ".utf8ByteSize + segment.utf8ByteSize > options.width then
    { lines := page.lines ++ [page.line ++ " &&"], line := continuation options segment }
  else { page with line := page.line ++ " && " ++ segment }

/-- All lines. -/
def finish (page : Page) : List String := page.lines ++ [page.line]

end Page

namespace Trigger

/-- The trigger as script text. -/
def render (options : RenderOptions) (t : Trigger) : String :=
  let segments := t.segments options.numberFormat
  if options.width = 0 then " && ".intercalate segments
  else "\n".intercalate (segments.foldl (Page.put options) {}).finish

/-- The trigger as script text, unless lines are to be broken and the indentation is longer than any
text can be. -/
def render? (options : RenderOptions) (t : Trigger) : Option String :=
  if options.isFeasible then some (t.render options) else none

end Trigger
end MemoryTrigger
