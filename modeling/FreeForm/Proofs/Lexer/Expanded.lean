import FreeForm.Lexing
import FreeForm.Proofs.Draft.RowSeams
import FreeForm.Proofs.Lexer.Acceptance
import FreeForm.Proofs.Lexer.Layout
import FreeForm.Proofs.Lexer.PrintedLines
import FreeForm.Proofs.Scan.Spelling

namespace FreeForm

/-!
# Lexing an expanded text

A document prints its token values next to each other, with the liminal text of its source between
them. Lexing what it prints gives the same statements if its neighbours can be told apart: where the
values of a macro body run into each other they cannot, and what comes out is another program. Only
tokens that did not stand in the source as they are must be looked at, and their neighbours up to the
next liminal text; all other tokens are read again where they are printed.
-/

/-- The predefined macros have the names that they were defined with. -/
theorem Configuration.isIdentifier_of_defineAll {definitions : List (Text × Text)}
    (hnames : ∀ definition ∈ definitions, isIdentifier definition.1 = true)
    {macros table : MacroTable}
    (hmacros : ∀ name body, macros.get? name = some body → isIdentifier name = true)
    (h : defineAll macros definitions = .ok table) {name : Text} {body : List Lexeme}
    (hget : table.get? name = some body) : isIdentifier name = true := by
  induction definitions generalizing macros with
  | nil =>
      cases h
      exact hmacros name body hget
  | cons definition definitions ih =>
      obtain ⟨key, text⟩ := definition
      obtain ⟨hkey, hnames⟩ := List.forall_mem_cons.mp hnames
      unfold defineAll MacroTable.define at h
      cases hbody : MacroTable.scanBody text with
      | error e =>
          rw [hbody] at h
          cases h
      | ok lexemes =>
          rw [hbody] at h
          refine ih hnames (fun other body hother => ?_) h
          rw [MacroTable.get?_insert] at hother
          split at hother
          · rename_i heq
            rw [heq]
            exact hkey
          · exact hmacros other body hother

theorem Configuration.named_macroTable {c : Configuration} {macros : MacroTable}
    (hnames : ∀ definition ∈ c.definitions, isIdentifier definition.1 = true)
    (h : c.macroTable = .ok macros) : macros.Named :=
  fun _ _ hget => isIdentifier_of_defineAll hnames (fun _ _ hnone => by cases hnone) h hget

/-- A line that scans and is no directive is taken as its lexemes. -/
theorem assemble_of_scanLine (env : Environment) {r : Reader} (hactive : r.isSuppressed = false)
    {line : Text} (hline : Line.isDirective line = false) {lexemes : List Lexeme}
    {o : Option Char} (hscan : scanLine r.scanner.openDelimiter line = .ok ⟨lexemes, o⟩)
    (lines : Source) (p : Phase) :
    assemble env (.ok line :: lines) r p =
      (p.takeParts (r.opened o (r.lineNumber + 1)) (.ofLexemes lexemes)).followedBy
        (r.opened o (r.lineNumber + 1)) lines
        fun phase => assemble env lines (r.opened o (r.lineNumber + 1)) phase := by
  rw [assemble, Reader.read_of_scanLine env hactive hline hscan]
  rfl

theorem MacroTable.emptiesNamed_empty : empty.EmptiesNamed :=
  fun _ hget => by cases hget

/-- A directive line leaves a layout that is not plain. -/
theorem Layout.isDirective_of_plain {σ : Layout} {s s' : Scanner} {line : Text}
    {lexemes : List Lexeme} (hrow : Row lexemes) (hscan : s.scan line = (.ok lexemes, s'))
    (hplace : σ.place = .margin) (hplain : (σ.after .empty lexemes).plain = true) :
    Line.isDirective line = false := by
  have hnone := plain_after_of_margin MacroTable.emptiesNamed_empty hrow hplace
    (plain_of_run hplain)
  rw [hplain] at hnone
  rw [Bool.eq_false_iff]
  intro hline
  obtain ⟨_, hscan', htext, _⟩ := s.scan_of_isDirective hline
  rw [hscan] at hscan'
  cases hscan'
  rw [htext] at hnone
  cases hnone

section Assemble

variable (env : Environment) {t : Text} {before : List Part} {done : List (List Text)} {σ : Layout}

/-- Whatever lines that are no directives join, they leave a layout behind, and a plain one. Their
parts are printed line after line. -/
theorem exists_laidOut_of_assemble {lines : List Text} (hsuffix : lines <:+ t.lines)
    (hlines : ∀ line ∈ lines, Line.isDirective line = false) {r : Reader}
    (hactive : r.isSuppressed = false) (hmacros : r.macros.Named)
    {rows : List (List Lexeme)} (hrows : r.scanner.scanAll lines = .ok rows) {p phase : Phase}
    (h : p.LaidOut before done σ) (hplain : σ.plain = true) {above : List (List Lexeme)}
    (hprinting : Printing r.macros above (before ++ p.parts) r.scanner.openDelimiter)
    (hends : lines ≠ [] → Part.EndLine (before ++ p.parts))
    (hok : (assemble env (lines.map .ok) r p).result = .ok phase) :
    (∃ τ, phase.LaidOut
      (before ++ (assemble env (lines.map .ok) r p).statements.flatMap Statement.parts)
      (done ++ (assemble env (lines.map .ok) r p).statements.map Statement.values) τ ∧
      τ.plain = true) ∧
    ∃ o, Printing r.macros (above ++ rows) (before ++
      ((assemble env (lines.map .ok) r p).statements.flatMap Statement.parts ++ phase.parts)) o := by
  induction lines generalizing r p before done σ rows above with
  | nil =>
      cases hok
      cases hrows
      rw [List.append_nil]
      refine ⟨⟨σ, ?_, hplain⟩, _, hprinting⟩
      simpa [assemble] using h
  | cons line lines ih =>
      obtain ⟨hline, hlines⟩ := List.forall_mem_cons.mp hlines
      obtain ⟨front, hfront⟩ := hsuffix
      obtain ⟨hne, hphysical, hfeed⟩ := splitAfter_eq_append_cons hfront.symm
      have hin : line ∈ t.lines := by rw [← hfront]; simp
      have hsuffix : lines <:+ t.lines := ⟨front ++ [line], by rw [List.append_assoc]; exact hfront⟩
      unfold Scanner.scanAll at hrows
      split at hrows
      · rename_i lexemes scanner hscanned
        cases hothers : scanner.scanAll lines with
        | error e =>
            rw [hothers] at hrows
            cases hrows
        | ok others =>
            rw [hothers] at hrows
            cases hrows
            obtain ⟨o, hscan⟩ := Scanner.scan_eq_ok hscanned
            have hscanner : scanner = ⟨o⟩ := by simpa [Scanner.scan, hscan] using hscanned.symm
            rw [hscanner] at hothers
            have hrow := Scanner.row_of_scan hin hscanned
            have hkept : (σ.after r.macros lexemes).plain = true := by
              rw [Layout.plain_after_of_margin hmacros.emptiesNamed hrow h.place hplain,
                Scanner.directiveText?_of_scan hscanned hline]
              rfl
            have hnamed : (r.opened o (r.lineNumber + 1)).macros.EmptiesNamed :=
              hmacros.emptiesNamed
            have htake : ∀ next, (p.takeParts (r.opened o (r.lineNumber + 1))
                (.ofLexemes lexemes)).result = .ok next → _ :=
              fun _ => h.exists_takeParts hnamed hrow hkept
            rw [List.map_cons, assemble_of_scanLine env hactive hline hscan] at hok ⊢
            generalize p.takeParts (r.opened o (r.lineNumber + 1)) (.ofLexemes lexemes) = taken
              at htake hok ⊢
            obtain ⟨ss, result, events⟩ := taken
            cases result with
            | error e => cases hok
            | ok next =>
                obtain ⟨ps, τ, ⟨_, hnext, hparts, hlaid⟩, hτ, hextends⟩ := htake next rfl
                cases hnext
                have hnow := hprinting.line (hends (List.cons_ne_nil line lines)) hne hphysical hrow
                  hscan hextends
                have hended : lines ≠ [] → Part.EndLine (before ++ ps) := by
                  intro hmore
                  refine Printing.endLine_of_extends hrow (fun e he => ?_) hextends
                  obtain ⟨_, hlexemes⟩ := scanLine_eq_ok hscan
                  dsimp only at hlexemes
                  rw [hlexemes, List.getLast?_concat] at he
                  obtain rfl := Option.some.inj he
                  exact Line.getLast?_terminator (hfeed hmore)
                rw [← hparts, ← List.append_assoc] at hnow hended
                obtain ⟨⟨τ', hfinal, hτ'⟩, o', hprinted⟩ := ih hsuffix hlines
                  (r := r.opened o (r.lineNumber + 1)) hactive hmacros hothers hlaid hτ hnow hended hok
                refine ⟨⟨τ', ?_, hτ'⟩, o', ?_⟩
                · simpa [Taking.followedBy, Assembly.prepend] using hfinal
                · have hmacros' : (r.opened o (r.lineNumber + 1)).macros = r.macros := rfl
                  rw [hmacros', List.append_assoc, List.singleton_append] at hprinted
                  simpa [Taking.followedBy, Assembly.prepend] using hprinted
      · cases hrows

/-- Lines whose neighbours stand apart are laid out as they stand. -/
theorem laidOut_of_scanAll {lines : List Text} (hmem : ∀ line ∈ lines, line ∈ t.lines)
    {r : Reader} (hactive : r.isSuppressed = false) (hmacros : r.macros = .empty) {p : Phase}
    (h : p.LaidOut before done σ) {rows : List (List Lexeme)}
    (hscan : r.scanner.scanAll lines = .ok rows)
    (hplain : (σ.after .empty rows.flatten).plain = true)
    (hseams : ∀ q ∈ (σ.after .empty rows.flatten).seams, Text.Apart q.1.value q.2.value) :
    ∃ phase, (assemble env (lines.map .ok) r p).result = .ok phase ∧
      (assemble env (lines.map .ok) r p).statements.flatMap Statement.parts ++ phase.parts =
        p.parts ++ σ.partsOf .empty rows.flatten ∧
      ∃ τ, phase.LaidOut
        (before ++ (assemble env (lines.map .ok) r p).statements.flatMap Statement.parts)
        (done ++ (assemble env (lines.map .ok) r p).statements.map Statement.values) τ := by
  induction lines generalizing r p before done σ rows with
  | nil =>
      cases hscan
      refine ⟨p, rfl, ?_, σ, ?_⟩
      · simp [assemble, Layout.partsOf]
      · simpa [assemble] using h
  | cons line lines ih =>
      obtain ⟨hin, hmem⟩ := List.forall_mem_cons.mp hmem
      unfold Scanner.scanAll at hscan
      split at hscan
      · rename_i lexemes scanner hscanned
        cases hrows : scanner.scanAll lines with
        | error e =>
            rw [hrows] at hscan
            cases hscan
        | ok others =>
            rw [hrows] at hscan
            cases hscan
            obtain ⟨o, hline⟩ := Scanner.scan_eq_ok hscanned
            have hscanner : scanner = ⟨o⟩ := by simpa [Scanner.scan, hline] using hscanned.symm
            rw [hscanner] at hrows
            have hrow := Scanner.row_of_scan hin hscanned
            rw [List.flatten_cons, Layout.after_append] at hplain hseams
            rw [List.flatten_cons, Layout.partsOf_append]
            have hkept : (σ.after .empty lexemes).plain = true := Layout.plain_of_run hplain
            have hplainLine := Layout.isDirective_of_plain hrow hscanned h.place hkept
            have hseamsLine : ∀ q ∈ (σ.after .empty lexemes).seams, Text.Apart q.1.value q.2.value :=
              fun q hq => hseams q ((Layout.seams_prefix_run _ _).subset hq)
            have hlaid := h.takeParts_of_apart (r := r.opened o (r.lineNumber + 1)) hmacros hrow
              hseamsLine
            rw [List.map_cons, assemble_of_scanLine env hactive hplainLine hline]
            generalize p.takeParts (r.opened o (r.lineNumber + 1)) (.ofLexemes lexemes) = taken
              at hlaid ⊢
            obtain ⟨ss, result, events⟩ := taken
            obtain ⟨next, hnext, hparts, hlaid⟩ := hlaid
            cases hnext
            obtain ⟨phase, hresult, hbehind, τ, hfinal⟩ := ih hmem
              (r := r.opened o (r.lineNumber + 1)) hactive hmacros hlaid hrows hplain hseams
            refine ⟨phase, hresult, ?_, τ, ?_⟩
            · rw [← List.append_assoc p.parts, ← hparts, List.append_assoc, ← hbehind]
              simp [Taking.followedBy, Assembly.prepend]
            · simpa [Taking.followedBy, Assembly.prepend] using hfinal
      · cases hscan

end Assemble

theorem Phase.laidOut_start : (Phase.building (.ofLiminals [])).LaidOut [] [] Layout.start :=
  ⟨Draft.laid_ofLiminals rfl rfl, rfl, rfl⟩

/-- The statements of a document are those that its parts lay out. -/
theorem Phase.LaidOut.document {ss : List Statement} {p : Phase} {σ : Layout}
    (h : p.LaidOut (ss.flatMap Statement.parts) (ss.map Statement.values) σ)
    (inclusions : List (Path × Document)) :
    Document.parts ⟨ss ++ p.last, p.trailing, inclusions⟩ =
        ss.flatMap Statement.parts ++ p.parts ∧
      Document.values ⟨ss ++ p.last, p.trailing, inclusions⟩ =
        (Layout.start.run (ss.flatMap Statement.parts ++ p.parts)).values := by
  constructor
  · rw [Document.parts, List.flatMap_append, List.append_assoc, p.parts_last]
  · rw [h.laid.run, h.values_eq]
    exact List.map_append

namespace Lexer

/-- What a text without directive lines was lexed into can be told from the parts alone. They hold no
directive line either, and are printed line after line. -/
theorem values_of_run {env : Environment} {macros : MacroTable} {name : Option Path}
    (hmacros : macros.Named) {t : Text}
    (hlines : ∀ line ∈ t.lines, Line.isDirective line = false) {d : Document}
    (h : ((start (.ofText t) macros name).run env).result = .ok d) :
    d.values = (Layout.start.run d.parts).values ∧ (Layout.start.run d.parts).plain = true ∧
      ∃ rows o, scanText t = .ok rows ∧ Printing macros rows d.parts o := by
  obtain ⟨phase, hphase, rfl⟩ := exists_of_run h
  have hnamed : (Reader.start name macros).macros.Named := hmacros
  obtain ⟨_, rows, hmore⟩ := scanAll_of_assemble rfl hlines hphase
  have hrows := Scanner.scanAll_of_append hmore
  obtain ⟨⟨σ, hlaid, hplain⟩, o, hprinting⟩ := exists_laidOut_of_assemble env (List.suffix_refl _)
    hlines rfl hnamed hrows Phase.laidOut_start rfl .start (fun _ _ hnone => by cases hnone) hphase
  rw [List.nil_append, List.nil_append] at hlaid
  obtain ⟨hparts, hvalues⟩ := hlaid.document (assemble env (.ofText t) (.start name macros)
    (.building (.ofLiminals []))).reader.inclusions
  have hrun := hlaid.laid.run
  refine ⟨hvalues.trans (congrArg (fun ps => (Layout.start.run ps).values) hparts.symm),
    (congrArg (fun ps => (Layout.start.run ps).plain) hparts).trans
      ((congrArg Layout.plain hrun).trans hplain), rows, o, hrows, ?_⟩
  exact hparts.symm ▸ hprinting

/-- Without macros a text is lexed into the parts that its lexemes stand for. -/
theorem exists_run_of_scanText (env : Environment) (name : Option Path) {t : Text}
    {rows : List (List Lexeme)} (hscan : scanText t = .ok rows)
    (hplain : (Layout.start.after .empty rows.flatten).plain = true)
    (hseams : ∀ q ∈ (Layout.start.after .empty rows.flatten).seams, Text.Apart q.1.value q.2.value) :
    ∃ d, ((start (.ofText t) .empty name).run env).result = .ok d ∧
      d.parts = Layout.start.partsOf .empty rows.flatten ∧
      d.values = (Layout.start.run d.parts).values := by
  have hrows : (Reader.start name .empty).scanner.scanAll t.lines = .ok rows := hscan
  obtain ⟨phase, hphase, hparts, σ, hlaid⟩ := laidOut_of_scanAll env (fun _ hline => hline) rfl rfl
    Phase.laidOut_start hrows hplain hseams
  rw [List.nil_append, List.nil_append] at hlaid
  obtain ⟨hdocument, hvalues⟩ := hlaid.document (assemble env (.ofText t) (.start name .empty)
    (.building (.ofLiminals []))).reader.inclusions
  refine ⟨_, ?_, hdocument.trans hparts,
    hvalues.trans (congrArg (fun ps => (Layout.start.run ps).values) hdocument.symm)⟩
  rw [run_start, Assembly.run]
  have hresult : (assemble env (.ofText t) (.start name .empty)
    (.building (.ofLiminals []))).result = .ok phase := hphase
  rw [hresult]
  rfl

end Lexer

/-- The tokens of a document can be told apart in what it prints. No invocation was replaced by
nothing; each token that did not stand in the source, and each in front of one up to the next liminal
text, is the first lexeme of what is printed from it on. A token that touches a neighbour that it was
not read with is more than one lexeme with it. -/
structure Document.Separable (d : Document) : Prop where
  whole : (Layout.start.run d.parts).whole = true
  words : Part.Separable d.parts
  seams : ∀ q ∈ (Layout.start.run d.parts).seams,
    q.1.origin = .expanded ∨ q.2.origin ≠ .written → Text.Apart q.1.value q.2.value

instance (d : Document) : Decidable d.Separable :=
  decidable_of_iff ((Layout.start.run d.parts).whole = true ∧ Part.Separable d.parts ∧
      ∀ q ∈ (Layout.start.run d.parts).seams,
        q.1.origin = .expanded ∨ q.2.origin ≠ .written → Text.Apart q.1.value q.2.value)
    ⟨fun ⟨hwhole, hwords, hseams⟩ => ⟨hwhole, hwords, hseams⟩,
      fun ⟨hwhole, hwords, hseams⟩ => ⟨hwhole, hwords, hseams⟩⟩

/-- No string is left open where it is not gone on with: by what a continuation mark of the source
hides, or by a token that touches the next one over a line break and was not joined to it. -/
structure Document.ClosesStrings (t : Text) (d : Document) : Prop where
  hidden : ∀ rows, scanText t = .ok rows → ∀ row ∈ rows, Line.Sealed row
  seams : ∀ q ∈ (Layout.start.run d.parts).seams, q.1.value.leftOpen = none

/-- A document in which every token stood in the source prints the source. -/
theorem Document.scanText_of_written {macros : MacroTable} (hmacros : macros.Named) {d : Document}
    {t : Text} {rows : List (List Lexeme)} (hscan : scanText t = .ok rows) {o : Option Char}
    (hprinting : Printing macros rows d.parts o)
    (hwhole : (Layout.start.run d.parts).whole = true)
    (hwritten : ∀ w, .token w ∈ d.parts → w.origin = .written) :
    scanText d.expanded = .ok rows ∧
      Layout.start.partsOf .empty rows.flatten = d.parts.map Part.written := by
  have hparts := hprinting.parts_of_written hmacros hwritten hwhole
  have hexpanded : d.expanded = t :=
    calc d.expanded
        = d.parts.flatMap Part.text := d.flatMap_text_parts.symm
      _ = Lexeme.concat rows.flatten := by rw [hparts, Layout.flatMap_text_partsOf]
      _ = (rows.map Lexeme.concat).flatten := by
          rw [Lexeme.concat, ← List.flatMap_id, List.flatMap_assoc, List.flatMap_def]
          rfl
      _ = t.lines.flatten := by rw [Scanner.concat_of_scanAll hscan]
      _ = t := Text.lines_flatten t
  have hkept : d.parts.map Part.written = d.parts := by
    refine (List.map_congr_left fun p hp => ?_).trans d.parts.map_id
    cases p with
    | token w =>
        obtain ⟨v, origin⟩ := w
        obtain rfl : origin = .written := hwritten _ hp
        rfl
    | liminal t => rfl
  rw [hexpanded, hkept]
  exact ⟨hscan, hparts.symm⟩

/-- What a document prints scans into its values and liminal texts, one after the other. -/
theorem Document.exists_scanText {macros : MacroTable} (hmacros : macros.Named) {d : Document}
    {t : Text} {rows : List (List Lexeme)} (hscan : scanText t = .ok rows) {o : Option Char}
    (hprinting : Printing macros rows d.parts o) (h : d.Separable)
    (hclosed : (∃ w, .token w ∈ d.parts ∧ w.origin ≠ .written) → d.ClosesStrings t) :
    ∃ rows, scanText d.expanded = .ok rows ∧
      Layout.start.partsOf .empty rows.flatten = d.parts.map Part.written := by
  obtain ⟨hwhole, hwords, _⟩ := h
  by_cases hchanged : ∃ w, .token w ∈ d.parts ∧ w.origin ≠ .written
  · obtain ⟨hidden, hopen⟩ := hclosed hchanged
    obtain ⟨hrows, _⟩ := hprinting.printedRows hmacros (hidden rows hscan) hopen
    rw [← List.append_nil d.parts] at hwords
    obtain ⟨rows', _, _, hpieces, hrescan⟩ := hrows.rescanned hwords hwhole
    rw [d.flatMap_text_parts] at hrescan
    exact ⟨rows', Scanner.scanAll_of_append hrescan, hpieces⟩
  · have hwritten : ∀ w, .token w ∈ d.parts → w.origin = .written :=
      fun w hw => not_not.mp fun hnot => hchanged ⟨w, hw, hnot⟩
    exact ⟨rows, scanText_of_written hmacros hscan hprinting hwhole hwritten⟩

/-- Neighbours that touch stand apart, whether they were read together or not. -/
theorem Document.apart_of_separable {macros : MacroTable} (hmacros : macros.Named) {d : Document}
    {rows : List (List Lexeme)} {o : Option Char} (hprinting : Printing macros rows d.parts o)
    (h : d.Separable) :
    ∀ q ∈ (Layout.start.run d.parts).seams, Text.Apart q.1.value q.2.value := by
  intro q hq
  by_cases hread : q.1.origin = .expanded ∨ q.2.origin ≠ .written
  · exact h.seams q hq hread
  · obtain ⟨hkept, hwritten⟩ := not_or.mp hread
    exact hprinting.apart hmacros.emptiesNamed q hq hkept (not_not.mp hwritten)

theorem exists_macroTable_of_lexText {files : Files} {c : Configuration} {t : Text} {d : Document}
    (h : (lexText files c t).result = .ok d) :
    ∃ macros, c.macroTable = .ok macros ∧
      ((Lexer.start (.ofText t) macros none).run (.ofConfiguration files c)).result = .ok d := by
  unfold lexText lexSource Lexer.ofSource at h
  cases hmacros : c.macroTable with
  | error e => simp [hmacros, Except.map, Run.failed] at h
  | ok macros =>
      simp only [hmacros, Except.map] at h
      exact ⟨macros, rfl, h⟩

/-- Whatever macros a text without directive lines is lexed with, lexing what its document prints
gives the same statements, if the tokens can be told apart there and, where some did not stand in the
source, no string is left open. -/
theorem lexText_expanded {files : Files} {c : Configuration}
    (hnames : ∀ definition ∈ c.definitions, Configuration.isIdentifier definition.1 = true)
    {t : Text} (hlines : ∀ line ∈ t.lines, Line.isDirective line = false) {d : Document}
    (h : (lexText files c t).result = .ok d) (hseparable : d.Separable)
    (hclosed : (∃ w, .token w ∈ d.parts ∧ w.origin ≠ .written) → d.ClosesStrings t) :
    ∃ d', (lexText files .standard d.expanded).result = .ok d' ∧ d'.values = d.values := by
  obtain ⟨macros, hmacros, hrun⟩ := exists_macroTable_of_lexText h
  have hnamed := Configuration.named_macroTable hnames hmacros
  obtain ⟨hvalues, hplain, rows, o, hsource, hprinting⟩ := Lexer.values_of_run hnamed hlines hrun
  obtain ⟨rows', hscan, hpieces⟩ := d.exists_scanText hnamed hsource hprinting hseparable hclosed
  have hafter : Layout.start.after .empty rows'.flatten = (Layout.start.run d.parts).written := by
    rw [Layout.after, hpieces, Layout.written_run]
    rfl
  obtain ⟨d', hrun', hparts', hvalues'⟩ := Lexer.exists_run_of_scanText
    (.ofConfiguration files .standard) none hscan (hafter ▸ hplain) (by
      rw [hafter]
      intro q hq
      obtain ⟨q', hq', rfl⟩ := List.mem_map.mp hq
      exact d.apart_of_separable hnamed hprinting hseparable q' hq')
  refine ⟨d', hrun', ?_⟩
  have hsame : (Layout.start.run d'.parts) = (Layout.start.run d.parts).written := by
    rw [hparts']
    exact hafter
  rw [hvalues', hsame, Layout.values_written, hvalues]

theorem lexText_expanded_of_joined :
    ∃ d, (lexText .none ⟨['.'], 16, [(['N'], "b+c".toList)]⟩
        "x = N; al&\n  &pha&\n&+N\n".toList).result = .ok d ∧
      d.expanded = "x = b+c; alpha&\n&+b+c\n".toList ∧
      ∃ d', (lexText .none .standard d.expanded).result = .ok d' ∧ d'.values = d.values := by
  have hcheck : (lexText .none ⟨['.'], 16, [(['N'], "b+c".toList)]⟩
      "x = N; al&\n  &pha&\n&+N\n".toList).result.toOption.any
        (fun d => decide ((d.Separable ∧ ∀ q ∈ (Layout.start.run d.parts).seams,
            q.1.value.leftOpen = none) ∧
          d.expanded = "x = b+c; alpha&\n&+b+c\n".toList)) = true := by
    decide +kernel
  have hhidden : (scanText "x = N; al&\n  &pha&\n&+N\n".toList).toOption.all
      (fun rows => decide (∀ row ∈ rows, Line.Sealed row)) = true := by
    decide +kernel
  cases hresult : (lexText .none ⟨['.'], 16, [(['N'], "b+c".toList)]⟩
      "x = N; al&\n  &pha&\n&+N\n".toList).result with
  | error e =>
      rw [hresult] at hcheck
      cases hcheck
  | ok d =>
      rw [hresult] at hcheck
      obtain ⟨⟨hseparable, hseams⟩, hexpanded⟩ := of_decide_eq_true hcheck
      refine ⟨d, rfl, hexpanded, lexText_expanded (by decide +kernel) (by decide +kernel) hresult
        hseparable fun _ => ⟨?_, hseams⟩⟩
      intro rows hrows
      rw [hrows] at hhidden
      exact of_decide_eq_true hhidden

/-- The values of a text that is lexed with one macro, and those of what its document prints. -/
def valuesTwice (body t : String) :
    Except LexError (List (List Text) × Except LexError (List (List Text))) :=
  (lexText .none ⟨['.'], 16, [(['N'], body.toList)]⟩ t.toList).result.map fun d =>
    (d.values, (lexText .none .standard d.expanded).result.map Document.values)

/-- The values of a macro body run into each other, for the blanks of the body are dropped; a token
that was joined runs into the next. The name of an empty macro is printed, values that touch are joined
where the invocation was not, and where a string is open that was not gone on with, in hidden text or
behind a token that was not joined, a body is read as part of it. -/
theorem lexText_expanded_differs :
    valuesTwice "a b" "N\n" =
        .ok ([["a".toList, "b".toList]], .ok [["ab".toList]]) ∧
      valuesTwice "" "a&\n&1b\n" =
        .ok ([["a1".toList, "b".toList]], .ok [["a1b".toList]]) ∧
      valuesTwice "" "a N b\n" =
        .ok ([["a".toList, "b".toList]], .ok [["a".toList, "N".toList, "b".toList]]) ∧
      valuesTwice "*" "*&\n&N\n" =
        .ok ([["*".toList, "*".toList]], .ok [["**".toList]]) ∧
      valuesTwice "b+c" "x & 'a&\nN\n" =
        .ok ([["x".toList, "b".toList, "+".toList, "c".toList]],
          .ok [["x".toList, "b+c".toList]]) ∧
      valuesTwice "b+c" "'a&\n&&&\n&N\n" =
        .ok ([["'a".toList, "&".toList, "b".toList, "+".toList, "c".toList]],
          .ok [["'a".toList, "&".toList, "b+c".toList]]) := by
  refine ⟨?_, ?_, ?_, ?_, ?_, ?_⟩ <;> decide +kernel

end FreeForm
