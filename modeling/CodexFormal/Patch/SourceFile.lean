import CodexFormal.Foundation.Splice
import CodexFormal.Patch.Text

/-!
# Source files with their line endings

A file is split into lines that keep their own ending.  The first ending seen is
the one that inserted lines get.
-/

set_option autoImplicit false

namespace CodexFormal.Patch

abbrev Replacement := Foundation.Edit Text

inductive LineEnding where
  | lf
  | crLf
  | cr
deriving DecidableEq, Repr

def LineEnding.asStr : LineEnding → Text
  | lf => ['\n']
  | crLf => ['\r', '\n']
  | cr => ['\r']

structure SourceLine where
  text : Text
  ending : Option LineEnding
deriving DecidableEq, Repr

structure SourceFile where
  lines : List SourceLine
  preferredEnding : LineEnding
deriving DecidableEq, Repr

namespace SourceFile

/-- The lines of a text, the first of which has been read up to its current
characters. -/
def parseLines : Text → Text → List SourceLine
  | line, [] => if line = [] then [] else [⟨line, none⟩]
  | line, '\r' :: '\n' :: rest => ⟨line, some .crLf⟩ :: parseLines [] rest
  | line, '\r' :: rest => ⟨line, some .cr⟩ :: parseLines [] rest
  | line, '\n' :: rest => ⟨line, some .lf⟩ :: parseLines [] rest
  | line, c :: rest => parseLines (line ++ [c]) rest

def parse (contents : Text) : SourceFile :=
  let lines := parseLines [] contents
  ⟨lines, (lines.findSome? SourceLine.ending).getD .lf⟩

variable (file : SourceFile)

def lineTexts : List Text := file.lines.map SourceLine.text

/-- The loop of the splice: copy up to the start of a replacement, skip what it
replaces, put its lines.  No value stands for a start before the lines already
consumed, where the index subtraction of the source underflows. -/
def spliceReplacements (preferred : LineEnding) :
    List Replacement → List SourceLine → Nat → Option (List SourceLine)
  | [], sourceLines, _ => some sourceLines
  | replacement :: rest, sourceLines, sourceIndex =>
    if replacement.startIndex < sourceIndex then none
    else
      let copied := replacement.startIndex - sourceIndex
      (spliceReplacements preferred rest
        (sourceLines.drop (copied + replacement.oldLen))
        (replacement.startIndex + replacement.oldLen)).map fun later =>
          sourceLines.take copied ++
            replacement.newItems.map (fun text => ⟨text, some preferred⟩) ++ later

/-- Every resulting line has an ending: a line without one gets the preferred one. -/
def terminate (preferred : LineEnding) (line : SourceLine) : SourceLine :=
  { line with ending := some (line.ending.getD preferred) }

def applyReplacements (replacements : List Replacement) : Option SourceFile :=
  (spliceReplacements file.preferredEnding replacements file.lines 0).map fun lines =>
    ⟨lines.map (terminate file.preferredEnding), file.preferredEnding⟩

def lineContents (line : SourceLine) : Text :=
  line.text ++ (line.ending.map LineEnding.asStr).getD []

def intoContents : Text := file.lines.flatMap lineContents

theorem parseLines_contents (line text : Text) :
    (parseLines line text).flatMap lineContents = line ++ text := by
  fun_induction parseLines line text with
  | case1 => rfl
  | case2 line here => simp [lineContents]
  | case3 line rest ih => simp [lineContents, LineEnding.asStr, ih]
  | case4 line rest notPair ih => simp [lineContents, LineEnding.asStr, ih]
  | case5 line rest ih => simp [lineContents, LineEnding.asStr, ih]
  | case6 line c rest _ _ _ ih => simp [ih]

theorem intoContents_parse (contents : Text) : (parse contents).intoContents = contents :=
  parseLines_contents [] contents

open Foundation List

/-- Replacements that are placed in the lines from an index on are spliced in; no
index subtraction underflows. -/
theorem spliceReplacements_splices (preferred : LineEnding) (replacements : List Replacement)
    (lines : List SourceLine) (source : Nat)
    (placed : Edit.Placed replacements (source + lines.length))
    (after : ∀ repl ∈ replacements, source ≤ repl.startIndex) :
    ∃ spliced, spliceReplacements preferred replacements lines source = some spliced ∧
    Splices id (fun text => ⟨text, some preferred⟩) source replacements lines spliced := by
  induction replacements generalizing lines source with
  | nil =>
    refine ⟨lines, rfl, ?_⟩
    have rule := @Splices.rest SourceLine Text SourceLine id
      (fun text => ⟨text, some preferred⟩) source lines
    rwa [map_id] at rule
  | cons repl rest ih =>
    obtain ⟨apart, -⟩ := pairwise_cons.mp placed.ordered
    obtain ⟨starts, -⟩ := forall_mem_cons.mp after
    have stops := placed.within repl (by simp)
    have isStop : repl.stop = repl.startIndex + repl.oldLen := rfl
    have skipped : repl.stop - source = repl.startIndex - source + repl.oldLen := by omega
    obtain ⟨later, run, more⟩ := ih (lines.drop (repl.stop - source))
      repl.stop (placed.tail.mono (by rw [length_drop]; omega)) apart
    refine ⟨_, ?_, Splices.take_drop starts stops more⟩
    rw [spliceReplacements, if_neg (Nat.not_lt.mpr starts)]
    dsimp only
    rw [← skipped, ← isStop, run, map_id]
    rfl

end SourceFile

end CodexFormal.Patch
