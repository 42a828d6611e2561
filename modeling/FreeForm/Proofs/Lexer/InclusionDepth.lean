import FreeForm.Proofs.Lexer.RoundTrip
import FreeForm.Proofs.Reader.IncludeLine
import Mathlib.Logic.Function.Iterate

namespace FreeForm

/-!
# Inclusion comes to an end

Files may include themselves or each other. Here the lexers of nested files are kept on a stack,
each with its depth written beside it: a line that includes a file puts a lexer of the file on top,
one level deeper, and waits for it. Nothing but the depth of the topmost lexer keeps the stack from
growing. Whatever the files, the stack comes down to what lexing the source gives.
-/

/-- Whether there is a file, which need not be one that can be opened. -/
def Entry.Exists (entry : Entry) : Prop :=
  (∃ bytes, entry = .file bytes) ∨ ∃ fault, entry = .unreadable fault

/-- A lexer between two lines, and how deep it is nested. -/
structure Frame where
  depth : Nat
  lines : Source
  reader : Reader
  phase : Phase
  statements : List Statement
  events : List Event

/-- A lexer in the middle of a line, which waits for the file that the line includes. -/
structure Waiting where
  line : SourceLine
  frame : Frame

/-- The lexers of a nest of files, the innermost first. -/
inductive Nest where
  | reading (top : Frame) (below : List Waiting)
  /-- The file of the topmost lexer has been lexed. -/
  | returning (run : Run) (below : List Waiting)

namespace Frame

/-- A lexer in front of a source. -/
def start (depth : Nat) (lines : Source) (macros : MacroTable) (name : Option Path) : Frame :=
  ⟨depth, lines, .start name macros, .building (.ofLiminals []), [], []⟩

variable (files : Files) (c : Configuration)

/-- What a frame reads its lines in, if lexing a file would give `run`. -/
def environment (f : Frame) (run : Run) : Environment :=
  ⟨files, c.includeRoot, c.maxIncludeDepth,
    if f.depth < c.maxIncludeDepth then some fun _ _ _ => run else none⟩

/-- The file that is to be lexed before a line can be read. -/
def opened? (f : Frame) (line : SourceLine) : Option (Path × List UInt8) :=
  if f.depth < c.maxIncludeDepth then
    (f.reader.inclusion? line).bind fun name =>
      match files (Path.join c.includeRoot name) with
      | .file bytes => some (Path.join c.includeRoot name, bytes)
      | _ => none
  else none

/-- Goes on behind a line that was read. -/
def proceed (env : Environment) (f : Frame) (line : SourceLine) (below : List Waiting) : Nest :=
  let reading := f.reader.read env line
  let taking := f.phase.takeReading reading
  match taking.result with
  | .error e =>
      .returning (Assembly.run ⟨f.statements ++ taking.statements, reading.reader,
        .error (e, f.lines), f.events ++ taking.events⟩) below
  | .ok phase =>
      .reading ⟨f.depth, f.lines, reading.reader, phase, f.statements ++ taking.statements,
        f.events ++ taking.events⟩ below

end Frame

namespace Nest

variable (files : Files) (c : Configuration)

/-- One line is read, one file is opened, or the lexer beneath one that has ended goes on. -/
def step : Nest → Nest
  | .reading f below =>
      match f.lines with
      | [] => .returning (Assembly.run ⟨f.statements, f.reader, .ok f.phase, f.events⟩) below
      | line :: lines =>
          match f.opened? files c line with
          | some (path, bytes) =>
              .reading (.start (f.depth + 1) (.ofBytes bytes) f.reader.macros (some path))
                (⟨line, { f with lines := lines }⟩ :: below)
          | none =>
              -- no file is opened, so that it does not matter what lexing one would give
              let nothing : Run := ⟨.ok .empty, .empty, []⟩
              { f with lines := lines }.proceed (f.environment files c nothing) line below
  | .returning run [] => .returning run []
  | .returning run (w :: below) =>
      w.frame.proceed (w.frame.environment files c run) w.line below

/-- Nothing but the lexer of a source. -/
def start (source : Source) (name : Option Path) : Nest :=
  match c.macroTable with
  | .error e => .returning (.failed e) []
  | .ok macros => .reading (.start 0 source macros name) []

/-- The lexers that have been created and not ended. -/
def frames : Nest → List Frame
  | .reading f below => f :: below.map Waiting.frame
  | .returning _ below => below.map Waiting.frame

end Nest

namespace Environment

/-- The environment of a lexer at some depth. -/
def atDepth (files : Files) (c : Configuration) (depth : Nat) : Environment :=
  ⟨files, c.includeRoot, c.maxIncludeDepth,
    nestedLexing files c.includeRoot c.maxIncludeDepth (c.maxIncludeDepth - depth)⟩

theorem atDepth_of_lt (files : Files) {c : Configuration} {depth : Nat}
    (h : depth < c.maxIncludeDepth) :
    atDepth files c depth = ⟨files, c.includeRoot, c.maxIncludeDepth,
      some fun path source macros =>
        (Lexer.start source macros (some path)).run (atDepth files c (depth + 1))⟩ := by
  have hlevels : c.maxIncludeDepth - depth = c.maxIncludeDepth - (depth + 1) + 1 := by omega
  rw [atDepth, hlevels]
  rfl

theorem atDepth_of_le (files : Files) {c : Configuration} {depth : Nat}
    (h : c.maxIncludeDepth ≤ depth) :
    atDepth files c depth = ⟨files, c.includeRoot, c.maxIncludeDepth, none⟩ := by
  rw [atDepth, Nat.sub_eq_zero_of_le h]
  rfl

end Environment

section Runs

variable {files : Files} {c : Configuration}

namespace Frame

/-- What the frame amounts to at the end of its source. -/
def rest (f : Frame) (env : Environment) : Run :=
  ((assemble env f.lines f.reader f.phase).prepend f.statements f.events).run

theorem rest_start (depth : Nat) (lines : Source) (macros : MacroTable) (name : Option Path)
    (env : Environment) :
    (start depth lines macros name).rest env = (Lexer.start lines macros name).run env := by
  rw [Lexer.run_start]
  rfl

/-- Behind a line that was read as the frame would have read it, the frame has the same rest. -/
theorem rest_proceed {env env' : Environment} {f : Frame} {line : SourceLine}
    (hread : f.reader.read env' line = f.reader.read env line) (below : List Waiting) :
    f.proceed env' line below =
        .returning ({ f with lines := line :: f.lines }.rest env) below ∨
      ∃ g : Frame, g.depth = f.depth ∧ g.lines = f.lines ∧
        g.rest env = { f with lines := line :: f.lines }.rest env ∧
        f.proceed env' line below = .reading g below := by
  unfold proceed rest
  rw [hread]
  simp only [assemble, Taking.followedBy]
  cases hresult : (f.phase.takeReading (f.reader.read env line)).result with
  | error e => exact .inl rfl
  | ok phase =>
      refine .inr ⟨⟨f.depth, f.lines, _, phase, _, _⟩, rfl, rfl, ?_, rfl⟩
      rw [Assembly.prepend_prepend]

/-- A line that opens no file is read the same whatever lexing a file gives. -/
theorem read_of_opened?_eq_none {f : Frame} {line : SourceLine}
    (h : f.opened? files c line = none) (run : Run) :
    f.reader.read (f.environment files c run) line =
      f.reader.read (.atDepth files c f.depth) line := by
  unfold environment
  by_cases hdepth : f.depth < c.maxIncludeDepth
  · rw [if_pos hdepth, Environment.atDepth_of_lt files hdepth]
    refine Reader.read_congr fun name bytes hname hentry => ?_
    simp [opened?, hdepth, hname, hentry] at h
  · rw [if_neg hdepth, Environment.atDepth_of_le files (Nat.le_of_not_lt hdepth)]

/-- A line that opens a file is read as soon as it is known what lexing the file gives. -/
theorem read_of_opened? {f : Frame} {line : SourceLine} {path : Path} {bytes : List UInt8}
    (h : f.opened? files c line = some (path, bytes)) :
    f.depth < c.maxIncludeDepth ∧
      f.reader.read (f.environment files c
          ((Lexer.start (.ofBytes bytes) f.reader.macros (some path)).run
            (.atDepth files c (f.depth + 1)))) line =
        f.reader.read (.atDepth files c f.depth) line := by
  unfold opened? at h
  split at h
  · rename_i hdepth
    refine ⟨hdepth, ?_⟩
    rw [environment, if_pos hdepth, Environment.atDepth_of_lt files hdepth]
    refine Reader.read_congr fun name content hname hentry => ?_
    rw [hname, Option.bind_some, hentry] at h
    cases h
    rfl
  · cases h

end Frame

namespace Nest

theorem exists_iterate_of_step {m m' : Nest} (h : ∃ n, (step files c)^[n] (step files c m) = m') :
    ∃ n, (step files c)^[n] m = m' :=
  h.imp' Nat.succ fun _ hn => hn

theorem exists_iterate_trans {m m' m'' : Nest} (h : ∃ n, (step files c)^[n] m = m')
    (h' : ∃ n, (step files c)^[n] m' = m'') : ∃ n, (step files c)^[n] m = m'' := by
  obtain ⟨n, rfl⟩ := h
  obtain ⟨n', rfl⟩ := h'
  exact ⟨n' + n, Function.iterate_add_apply ..⟩

/-- The topmost lexer comes to its end, and the lexers beneath it are left as they were. -/
theorem exists_iterate_reading (files : Files) (c : Configuration) (f : Frame)
    (below : List Waiting) :
    ∃ n, (step files c)^[n] (.reading f below) =
      .returning (f.rest (.atDepth files c f.depth)) below := by
  -- on the levels left above the frame, and on the lines left in it
  induction hlevels : c.maxIncludeDepth - f.depth using Nat.strongRecOn
    generalizing f below with
  | _ levels ihdeeper =>
  induction hlines : f.lines generalizing f with
  | nil =>
      refine ⟨1, ?_⟩
      simp [step, Frame.rest, hlines, assemble, Assembly.prepend]
  | cons line lines ih =>
      have hwhole : { f with lines := line :: lines } = f := by rw [← hlines]
      have hproceed : ∀ env', f.reader.read env' line =
          f.reader.read (.atDepth files c f.depth) line → ∃ n, (step files c)^[n]
            ({ f with lines := lines }.proceed env' line below) =
              .returning (f.rest (.atDepth files c f.depth)) below := by
        intro env' hread
        rcases Frame.rest_proceed (f := { f with lines := lines }) hread below with
          hended | ⟨g, hdepth, hrest, hsame, hgoes⟩
        · exact ⟨0, by simpa [hwhole] using hended⟩
        · have hbehind := ih g (hdepth ▸ hlevels) hrest
          rw [hdepth, hsame, hwhole] at hbehind
          rw [hgoes]
          exact hbehind
      apply exists_iterate_of_step
      cases hopened : f.opened? files c line with
      | none =>
          simp only [step, hlines, hopened]
          exact hproceed _ (Frame.read_of_opened?_eq_none hopened _)
      | some opened =>
          obtain ⟨path, bytes⟩ := opened
          obtain ⟨hdepth, hread⟩ := Frame.read_of_opened? hopened
          simp only [step, hlines, hopened]
          have hnested := ihdeeper (c.maxIncludeDepth - (f.depth + 1)) (by omega)
            (.start (f.depth + 1) (.ofBytes bytes) f.reader.macros (some path))
            (⟨line, { f with lines := lines }⟩ :: below) rfl
          refine exists_iterate_trans hnested (exists_iterate_of_step ?_)
          rw [Frame.rest_start]
          exact hproceed _ hread

end Nest

/-- The depth of each lexer is the number of lexers that wait for it, and at most the limit. -/
def Leveled (limit : Nat) : List Frame → Prop
  | [] => True
  | f :: below => f.depth = below.length ∧ f.depth ≤ limit ∧ Leveled limit below

theorem Leveled.depth_le {limit : Nat} {fs : List Frame} (h : Leveled limit fs) {f : Frame}
    (hf : f ∈ fs) : f.depth ≤ limit := by
  induction fs with
  | nil => cases hf
  | cons g below ih =>
      obtain ⟨_, hdepth, hbelow⟩ := h
      rcases List.mem_cons.mp hf with rfl | hf
      · exact hdepth
      · exact ih hbelow hf

namespace Nest

theorem leveled_proceed (env : Environment) {f : Frame} {below : List Waiting}
    (hdepth : f.depth = below.length) (hlimit : f.depth ≤ c.maxIncludeDepth)
    (hbelow : Leveled c.maxIncludeDepth (below.map Waiting.frame)) (line : SourceLine) :
    Leveled c.maxIncludeDepth (f.proceed env line below).frames := by
  unfold Frame.proceed
  dsimp only
  split
  · exact hbelow
  · exact ⟨by simpa using hdepth, hlimit, hbelow⟩

theorem leveled_start (source : Source) (name : Option Path) :
    Leveled c.maxIncludeDepth (start c source name).frames := by
  unfold start
  split
  · trivial
  · exact ⟨rfl, Nat.zero_le _, trivial⟩

theorem leveled_step {m : Nest} (h : Leveled c.maxIncludeDepth m.frames) :
    Leveled c.maxIncludeDepth (step files c m).frames := by
  cases m with
  | reading f below =>
      obtain ⟨hdepth, hlimit, hbelow⟩ := h
      unfold step
      dsimp only
      split
      · exact hbelow
      · rename_i line lines _
        split
        · rename_i hopened
          have hdeeper := (Frame.read_of_opened? hopened).1
          exact ⟨by simpa [Frame.start] using hdepth, hdeeper, hdepth, hlimit, hbelow⟩
        · exact leveled_proceed (f := { f with lines := lines }) _ (by simpa using hdepth) hlimit
            hbelow line
  | returning run below =>
      cases below with
      | nil => trivial
      | cons w below =>
          obtain ⟨hdepth, hlimit, hbelow⟩ := h
          exact leveled_proceed _ (by simpa using hdepth) hlimit hbelow _

theorem leveled_iterate (files : Files) (c : Configuration) (source : Source)
    (name : Option Path) (n : Nat) :
    Leveled c.maxIncludeDepth ((step files c)^[n] (start c source name)).frames := by
  induction n with
  | zero => exact leveled_start source name
  | succ n ih =>
      rw [Function.iterate_succ_apply']
      exact leveled_step ih

/-- Step by step, the lexers of a source and of the files it includes come to what lexing the source
gives. -/
theorem exists_iterate_start (files : Files) (c : Configuration) (source : Source)
    (name : Option Path) :
    ∃ n, (step files c)^[n] (start c source name) =
      .returning (lexSource files c source name) [] := by
  unfold start lexSource Lexer.ofSource
  cases c.macroTable with
  | error e => exact ⟨0, rfl⟩
  | ok macros =>
      obtain ⟨n, hn⟩ := exists_iterate_reading files c (.start 0 source macros name) []
      rw [Frame.rest_start] at hn
      exact ⟨n, hn⟩

end Nest

namespace Frame

/-- Nothing comes of the line in front of a frame but a finding. -/
def Skips (f : Frame) (finding : Finding) (below : List Waiting) (m : Nest) : Prop :=
  ∃ lead event, m = .reading
    { f with
      lines := f.lines.tail
      reader := { f.reader with lineNumber := f.reader.lineNumber + 1 }
      phase := f.phase.addLiminals lead
      events := f.events ++
        [event, .diagnosed ⟨finding, f.reader.source, f.reader.lineNumber + 1⟩] } below

end Frame

namespace Nest

variable {f : Frame} {below : List Waiting} {line : SourceLine} {lines : Source} {included : Path}
  (hlines : f.lines = line :: lines) (hincluded : f.reader.inclusion? line = some included)
include hlines hincluded

/-- At the limit an existing file is skipped. At a lower depth a lexer of the file is put on top,
unless the file cannot be opened. -/
theorem step_of_inclusion? (hlimit : f.depth ≤ c.maxIncludeDepth)
    (hexists : (files (Path.join c.includeRoot included)).Exists) :
    f.depth = c.maxIncludeDepth ∧ f.Skips (.includeTooDeep included c.maxIncludeDepth) below
        (step files c (.reading f below)) ∨
      f.depth < c.maxIncludeDepth ∧
        ((∃ bytes, files (Path.join c.includeRoot included) = .file bytes ∧
            step files c (.reading f below) =
              .reading (.start (f.depth + 1) (.ofBytes bytes) f.reader.macros
                (some (Path.join c.includeRoot included)))
                (⟨line, { f with lines := lines }⟩ :: below)) ∨
          ∃ fault run, files (Path.join c.includeRoot included) = .unreadable fault ∧
            run.result = .error (.includeUnreadable (Path.join c.includeRoot included) fault) ∧
            step files c (.reading f below) = .returning run below) := by
  obtain ⟨lead, event, hread⟩ := Reader.read_of_inclusion? hincluded
  rcases Nat.lt_or_eq_of_le hlimit with hdepth | hdepth
  · right
    refine ⟨hdepth, ?_⟩
    rcases hexists with ⟨bytes, hentry⟩ | ⟨fault, hentry⟩
    · left
      refine ⟨bytes, hentry, ?_⟩
      simp only [step, hlines, Frame.opened?, if_pos hdepth, hincluded, Option.bind_some, hentry]
    · right
      refine ⟨fault, Assembly.run ⟨f.statements ++ f.phase.due,
        { f.reader with lineNumber := f.reader.lineNumber + 1 },
        .error (.includeUnreadable (Path.join c.includeRoot included) fault, lines),
        f.events ++ [event, .including (Path.join c.includeRoot included)]⟩, hentry, rfl, ?_⟩
      simp only [step, hlines, Frame.opened?, if_pos hdepth, hincluded, Option.bind_some, hentry,
        Frame.proceed, hread, Frame.environment, Reader.includeFile, Phase.takeReading, Except.map]
  · left
    refine ⟨hdepth, lead, event, ?_⟩
    have hopened : f.opened? files c line = none := by simp [Frame.opened?, hdepth]
    simp only [step, hlines, hopened, Frame.proceed, hread, Frame.environment, hdepth]
    rcases hexists with ⟨bytes, hentry⟩ | ⟨fault, hentry⟩ <;>
      simp [Reader.includeFile, hentry, Reader.report, Reader.diagnosed, Phase.takeReading,
        Phase.takeParts, Taking.prepend, Except.map]

theorem skips_iff (hlimit : f.depth ≤ c.maxIncludeDepth)
    (hexists : (files (Path.join c.includeRoot included)).Exists) :
    f.Skips (.includeTooDeep included c.maxIncludeDepth) below (step files c (.reading f below)) ↔
      f.depth = c.maxIncludeDepth := by
  rcases step_of_inclusion? hlines hincluded hlimit hexists with
    ⟨hdepth, hskips⟩ | ⟨hdepth, ⟨bytes, _, hstep⟩ | ⟨fault, run, _, _, hstep⟩⟩
  · exact iff_of_true hskips hdepth
  · refine iff_of_false ?_ (Nat.ne_of_lt hdepth)
    rintro ⟨lead, event, hskips⟩
    rw [hstep] at hskips
    simp at hskips
  · refine iff_of_false ?_ (Nat.ne_of_lt hdepth)
    rintro ⟨lead, event, hskips⟩
    rw [hstep] at hskips
    cases hskips

end Nest

end Runs

namespace Document

theorem height_le_iff {d : Document} {n : Nat} :
    d.height ≤ n ↔ ∀ i ∈ d.inclusions, i.2.height + 1 ≤ n := by
  obtain ⟨_, _, is⟩ := d
  rw [height]
  induction is with
  | nil => simp [heightOfInclusions]
  | cons i is ih => rw [heightOfInclusions, heightOfInclusion, Nat.max_le, ih, List.forall_mem_cons]

end Document

theorem Lexer.height_le_of_run (files : Files) (root : Path) (maxDepth levels : Nat)
    {source : Source} {macros : MacroTable} {name : Option Path} {d : Document}
    (h : ((start source macros name).run
      ⟨files, root, maxDepth, Environment.nestedLexing files root maxDepth levels⟩).result =
        .ok d) : d.height ≤ levels := by
  induction levels generalizing source macros name d with
  | zero =>
      obtain ⟨_, _, hlexed⟩ := source_of_run _ h
      rw [Document.height_le_iff]
      intro i hi
      obtain ⟨_, _, _, _, hnested, _⟩ := hlexed i hi
      cases hnested
  | succ levels ih =>
      obtain ⟨_, _, hlexed⟩ := source_of_run _ h
      rw [Document.height_le_iff]
      intro i hi
      obtain ⟨_, _, _, _, hnested, hrun⟩ := hlexed i hi
      cases hnested
      exact Nat.succ_le_succ (ih hrun)

theorem Lexer.height_le_of_lexSource {files : Files} {c : Configuration} {source : Source}
    {name : Option Path} {d : Document} (h : (lexSource files c source name).result = .ok d) :
    d.height ≤ c.maxIncludeDepth := by
  unfold lexSource ofSource at h
  cases hmacros : c.macroTable with
  | error e => simp [hmacros, Except.map, Run.failed] at h
  | ok macros =>
      simp only [hmacros, Except.map] at h
      exact height_le_of_run files c.includeRoot c.maxIncludeDepth c.maxIncludeDepth h

/-- Whatever files include each other, lexing comes to an end, no lexer is nested deeper than the
limit, the limit alone keeps an existing file from being included, and so the document is no higher
than the limit. -/
theorem lexSource_bounded (files : Files) (c : Configuration) (source : Source)
    (name : Option Path) :
    (∃ n, (Nest.step files c)^[n] (.start c source name) =
        .returning (lexSource files c source name) []) ∧
      (∀ n, ∀ f ∈ ((Nest.step files c)^[n] (.start c source name)).frames,
        f.depth ≤ c.maxIncludeDepth) ∧
      (∀ n f below line lines included,
        (Nest.step files c)^[n] (.start c source name) = .reading f below →
        f.lines = line :: lines → f.reader.inclusion? line = some included →
        (files (Path.join c.includeRoot included)).Exists →
        (f.Skips (.includeTooDeep included c.maxIncludeDepth) below
            (Nest.step files c (.reading f below)) ↔ f.depth = c.maxIncludeDepth)) ∧
      ∀ d, (lexSource files c source name).result = .ok d →
        d.height ≤ c.maxIncludeDepth ∧ (c.maxIncludeDepth = 0 → d.inclusions = []) := by
  refine ⟨Nest.exists_iterate_start files c source name, fun n f hf => ?_, ?_, fun d hd => ?_⟩
  · exact (Nest.leveled_iterate files c source name n).depth_le hf
  · intro n f below line lines included hreached hlines hincluded hexists
    have hleveled := Nest.leveled_iterate files c source name n
    rw [hreached] at hleveled
    exact Nest.skips_iff hlines hincluded hleveled.2.1 hexists
  · have hheight := Lexer.height_le_of_lexSource hd
    refine ⟨hheight, fun hzero => ?_⟩
    rw [hzero, Document.height_le_iff] at hheight
    refine List.eq_nil_iff_forall_not_mem.mpr fun i hi => ?_
    exact absurd (hheight i hi) (by omega)

/-- Two files that include each other. -/
def Files.cycle : Files := .ofEntries
  [("./a".toList, .file (Text.toUtf8 "#include <b>\nx\n".toList)),
    ("./b".toList, .file (Text.toUtf8 "#include <a>\n".toList))]

/-- One level down a cycle, the file that would be included next is passed over. -/
theorem lexSource_bounded_of_cycle :
    (∃ d, (lexSource .cycle ⟨['.'], 1, []⟩ (.ofText "#include <a>\n".toList) none).result = .ok d ∧
      d.values = [] ∧ d.height = 1 ∧ d.height ≤ 1) ∧
    ∃ f below line lines,
      (Nest.step .cycle ⟨['.'], 1, []⟩)^[1]
        (.start ⟨['.'], 1, []⟩ (.ofText "#include <a>\n".toList) none) = .reading f below ∧
      f.lines = line :: lines ∧ f.reader.inclusion? line = some "b".toList ∧ f.depth = 1 ∧
      f.Skips (.includeTooDeep "b".toList 1) below
        (Nest.step .cycle ⟨['.'], 1, []⟩ (.reading f below)) := by
  obtain ⟨_, _, hskips, hheight⟩ := lexSource_bounded .cycle ⟨['.'], 1, []⟩
    (.ofText "#include <a>\n".toList) none
  constructor
  · have hvalues : (lexSource .cycle ⟨['.'], 1, []⟩ (.ofText "#include <a>\n".toList)
        none).result.toOption.map (fun d => (d.values, d.height)) = some ([], 1) := by
      decide +kernel
    obtain ⟨d, hresult, hd⟩ := exists_of_map_toOption hvalues
    obtain ⟨hvalues, hone⟩ := Prod.ext_iff.mp hd
    exact ⟨d, hresult, hvalues, hone, (hheight d hresult).1⟩
  · refine ⟨.start 1 (.ofText "#include <b>\nx\n".toList) .empty (some "./a".toList),
      [⟨.ok "#include <a>\n".toList, .start 0 [] .empty none⟩],
      .ok "#include <b>\n".toList, [.ok "x\n".toList], rfl, rfl, rfl, rfl, ?_⟩
    exact (hskips 1 _ _ _ _ _ rfl rfl rfl (.inl ⟨_, rfl⟩)).mpr rfl

end FreeForm
