import FreeForm.Directive
import FreeForm.Proofs.Text.Words

namespace FreeForm

/-!
# How directives are written

What stands behind the directive mark, trimmed, is a directive in one of a few forms, or it is known
but lacks its argument, or it is not known. An include line needs no white space behind its keyword,
so that the keyword is looked for at the front of the text and not as a word. Therefore a word that
only starts with the keyword is taken for an include line too, and is an error for want of a path.
-/

namespace Directive

/-- The characters in front of a path and behind it, and whether they mark a system file. -/
inductive PathMarks : Char → Char → Bool → Prop
  | quotes : PathMarks '"' '"' false
  | brackets : PathMarks '<' '>' true

/-- An include line: behind its keyword comes nothing, white space, or the mark in front of a path. -/
def IncludeLine (body : Text) : Prop :=
  ∃ argument, body = includeWord ++ argument ∧
    ∀ c ∈ argument.head?, Unicode.isWhiteSpace c = true ∨ c = '"' ∨ c = '<'

/-- What a directive is written as. -/
inductive WrittenAs : Directive → Text → Prop
  | define {body rest name value : Text} (hbody : body.Splits Keyword.define.text rest)
      (hrest : rest.Splits name value) (hname : name ≠ []) : WrittenAs (.define name value) body
  | undef {body rest name others : Text} (hbody : body.Splits Keyword.undef.text rest)
      (hrest : rest.Splits name others) (hname : name ≠ []) : WrittenAs (.undef name) body
  | ifdef {body rest name others : Text} (hbody : body.Splits Keyword.ifdef.text rest)
      (hrest : rest.Splits name others) (hname : name ≠ []) : WrittenAs (.ifdef name) body
  | ifndef {body rest name others : Text} (hbody : body.Splits Keyword.ifndef.text rest)
      (hrest : rest.Splits name others) (hname : name ≠ []) : WrittenAs (.ifndef name) body
  | otherwise {body others : Text} (hbody : body.Splits Keyword.otherwise.text others) :
      WrittenAs .otherwise body
  | endif {body others : Text} (hbody : body.Splits Keyword.endif.text others) :
      WrittenAs .endif body
  | includeFile {gap path others : Text} {mark close : Char} {system : Bool}
      (hgap : ∀ c ∈ gap, Unicode.isWhiteSpace c = true) (hmarks : PathMarks mark close system)
      (hpath : path ≠ []) (hclose : close ∉ path) :
      WrittenAs (.includeFile path system)
        (includeWord ++ (gap ++ mark :: (path ++ close :: others)))
  | unsupported {body : Text} (hword : ∀ k rest, ¬body.Splits (Keyword.text k) rest)
      (hinclude : ¬IncludeLine body) : WrittenAs (.unsupported body) body

/-- A directive that needs a name stands alone. -/
def LacksName (body : Text) : Prop :=
  ∃ k ∈ [Keyword.define, .undef, .ifdef, .ifndef], body.Splits k.text []

/-- An include line has no path where one is looked for. -/
def LacksPath (body : Text) : Prop :=
  IncludeLine body ∧ ∀ path system, ¬WrittenAs (.includeFile path system) body

/-- The keyword of an include line runs on into something else. -/
def RunsOn (body : Text) : Prop :=
  ∃ c rest, body = includeWord ++ c :: rest ∧ Unicode.isWhiteSpace c = false ∧ c ≠ '"' ∧ c ≠ '<'

/-- The body of a definition is a stretch of the line. -/
theorem WrittenAs.suffix_value {b name value : Text} (h : WrittenAs (.define name value) b) :
    value <:+ b := by
  cases h with
  | define hbody hrest _ => exact hrest.suffix.trans hbody.suffix

theorem includeLine_or_runsOn (argument : Text) :
    IncludeLine (includeWord ++ argument) ∨ RunsOn (includeWord ++ argument) := by
  cases argument with
  | nil => exact .inl ⟨[], rfl, fun c hc => by cases hc⟩
  | cons c rest =>
      by_cases hc : Unicode.isWhiteSpace c = true ∨ c = '"' ∨ c = '<'
      · exact .inl ⟨c :: rest, rfl, fun d hd => Option.some.inj hd ▸ hc⟩
      · obtain ⟨hspace, hquote, hbracket⟩ := by simpa only [not_or] using hc
        exact .inr ⟨c, rest, rfl, Bool.eq_false_iff.mpr hspace, hquote, hbracket⟩

theorem takeWhile_bne_append {close : Char} {path : Text} (h : close ∉ path) (others : Text) :
    (path ++ close :: others).takeWhile (· != close) = path := by
  have hall : ∀ c ∈ path, (c != close) = true := by
    intro c hc
    rw [bne_iff_ne]
    rintro rfl
    exact h hc
  rw [List.takeWhile_append_of_pos hall, List.takeWhile_cons_of_neg (by simp), List.append_nil]

theorem closed_eq_some_iff {close : Char} {system system' : Bool} {t path : Text} :
    includePath?.closed close system t = some (path, system') ↔
      system = system' ∧ path ≠ [] ∧ close ∉ path ∧ ∃ others, t = path ++ close :: others := by
  unfold includePath?.closed
  constructor
  · intro h
    split at h
    · rename_i hclosed
      obtain ⟨hmem, hhead⟩ := hclosed
      obtain ⟨front, others, rfl, hfront⟩ := List.eq_append_cons_of_mem hmem
      rw [takeWhile_bne_append hfront] at h
      cases h
      refine ⟨rfl, ?_, hfront, others, rfl⟩
      rintro rfl
      exact hhead rfl
    · cases h
  · rintro ⟨rfl, hpath, hclose, others, rfl⟩
    have hhead : (path ++ close :: others).head? ≠ some close := by
      obtain ⟨c, path, rfl⟩ := List.exists_cons_of_ne_nil hpath
      intro hc
      rw [Option.some.inj hc] at hclose
      exact hclose List.mem_cons_self
    rw [if_pos ⟨by simp, hhead⟩, takeWhile_bne_append hclose]

/-- The path at the front of an argument stands between its marks. -/
theorem includePath?_eq_some_iff {argument path : Text} {system : Bool} :
    includePath? argument = some (path, system) ↔ ∃ mark close others,
      PathMarks mark close system ∧ path ≠ [] ∧ close ∉ path ∧
        argument = mark :: (path ++ close :: others) := by
  constructor
  · intro h
    cases argument with
    | nil => cases h
    | cons c rest =>
        simp only [includePath?] at h
        split at h
        · rename_i hc
          obtain ⟨rfl, hpath, hclose, others, rfl⟩ := closed_eq_some_iff.mp h
          exact ⟨c, '"', others, hc ▸ .quotes, hpath, hclose, rfl⟩
        · split at h
          · rename_i hc
            obtain ⟨rfl, hpath, hclose, others, rfl⟩ := closed_eq_some_iff.mp h
            exact ⟨c, '>', others, hc ▸ .brackets, hpath, hclose, rfl⟩
          · cases h
  · rintro ⟨mark, close, others, hmarks, hpath, hclose, rfl⟩
    cases hmarks with
    | quotes => exact closed_eq_some_iff.mpr ⟨rfl, hpath, hclose, others, rfl⟩
    | brackets => exact closed_eq_some_iff.mpr ⟨rfl, hpath, hclose, others, rfl⟩

theorem trim_body (line : Text) : (body line).trim = body line := by
  unfold body
  split
  · split <;> exact Text.trim_trim _
  · rfl

/-- No keyword that is a word of its own starts an include line. -/
theorem ofText?_firstWord_include (argument : Text) :
    Keyword.ofText? (Text.firstWord (includeWord ++ argument)) = none := by
  have hword : ∀ c ∈ includeWord, (!Unicode.isWhiteSpace c) = true :=
    List.all_eq_true.mp (by decide)
  have hfirst : Text.firstWord (includeWord ++ argument) =
      includeWord ++ argument.takeWhile (!Unicode.isWhiteSpace ·) :=
    List.takeWhile_append_of_pos hword
  cases hk : Keyword.ofText? (Text.firstWord (includeWord ++ argument)) with
  | none => rfl
  | some k =>
      have htext := Keyword.text_of_ofText? hk
      rw [hfirst] at htext
      cases k <;> simp [Keyword.text, includeWord] at htext

theorem isPrefixOf_includeWord (argument : Text) :
    includeWord.isPrefixOf (includeWord ++ argument) = true :=
  List.isPrefixOf_iff_prefix.mpr (List.prefix_append _ _)

section Include

variable (line : Text) {argument : Text}

theorem ofBody_include {path : Text} {system : Bool}
    (h : includePath? argument.trimStart = some (path, system)) :
    ofBody line (includeWord ++ argument) = .ok (.includeFile path system) := by
  simp only [ofBody, ofText?_firstWord_include, if_pos (isPrefixOf_includeWord argument), List.drop_left, h]

theorem ofBody_include_none (h : includePath? argument.trimStart = none) :
    ofBody line (includeWord ++ argument) =
      .error (.malformedDirective line 0 .badIncludePath) := by
  simp only [ofBody, ofText?_firstWord_include, if_pos (isPrefixOf_includeWord argument), List.drop_left, h]

end Include

theorem ofBody_of_lacksPath {b : Text} (h : LacksPath b) (line : Text) :
    ofBody line b = .error (.malformedDirective line 0 .badIncludePath) := by
  obtain ⟨⟨argument, rfl, _⟩, hnone⟩ := h
  cases hpath : includePath? argument.trimStart with
  | none => exact ofBody_include_none line hpath
  | some found =>
      obtain ⟨path, system⟩ := found
      obtain ⟨mark, close, others, hmarks, hne, hclose, hquoted⟩ := includePath?_eq_some_iff.mp hpath
      have hgap : ∀ c ∈ argument.takeWhile Unicode.isWhiteSpace, Unicode.isWhiteSpace c = true :=
        List.all_eq_true.mp List.all_takeWhile
      have hwritten : WrittenAs (.includeFile path system)
          (includeWord ++ (argument.takeWhile Unicode.isWhiteSpace ++
            mark :: (path ++ close :: others))) := .includeFile hgap hmarks hne hclose
      have hwhole : argument.takeWhile Unicode.isWhiteSpace ++ argument.trimStart = argument :=
        List.takeWhile_append_dropWhile
      rw [← hquoted, hwhole] at hwritten
      exact absurd hwritten (hnone path system)

theorem ofBody_of_runsOn {b : Text} (h : RunsOn b) (line : Text) :
    ofBody line b = .error (.malformedDirective line 0 .badIncludePath) := by
  obtain ⟨c, rest, rfl, hspace, hquote, hbracket⟩ := h
  have hstart : Text.trimStart (c :: rest) = c :: rest :=
    List.dropWhile_cons_of_neg (by simp [hspace])
  have hnone : includePath? (Text.trimStart (c :: rest)) = none := by
    rw [hstart]
    simp only [includePath?, if_neg hquote, if_neg hbracket]
  exact ofBody_include_none line hnone

section Body

variable {b : Text} (hb : b.trim = b)
include hb

theorem ofText?_firstWord_eq_none (h : ∀ k rest, ¬b.Splits (Keyword.text k) rest) :
    Keyword.ofText? b.firstWord = none := by
  cases hk : Keyword.ofText? b.firstWord with
  | none => rfl
  | some k =>
      refine absurd ?_ (h k b.splitWord.2)
      rw [Text.splits_iff hb, Keyword.text_of_ofText? hk]
      rfl

/-- Whether a directive is a conditional can be told from its keyword. -/
theorem WrittenAs.any_isConditional {d : Directive} (h : WrittenAs d b) :
    (Keyword.ofText? b.firstWord).any (·.isConditional) = d.isConditional := by
  have hkeyword : ∀ {k rest}, b.Splits (Keyword.text k) rest →
      (Keyword.ofText? b.firstWord).any (·.isConditional) = k.isConditional := by
    intro k rest hsplits
    rw [Text.firstWord, (Text.splits_iff hb).mp hsplits, Keyword.ofText?_text]
    rfl
  cases h with
  | define hbody | undef hbody | ifdef hbody | ifndef hbody | otherwise hbody | endif hbody =>
      exact hkeyword hbody
  | includeFile =>
      rw [ofText?_firstWord_include]
      rfl
  | unsupported hword =>
      rw [ofText?_firstWord_eq_none hb hword]
      rfl

/-- What is trimmed behind the mark is of one of the forms, or it is at fault. -/
theorem exists_form : (∃ d, WrittenAs d b ∧ ¬RunsOn b) ∨ LacksName b ∨ LacksPath b ∨ RunsOn b := by
  by_cases hruns : RunsOn b
  · exact .inr (.inr (.inr hruns))
  by_cases hinclude : IncludeLine b
  · by_cases hpath : ∃ path system, WrittenAs (.includeFile path system) b
    · obtain ⟨path, system, hwritten⟩ := hpath
      exact .inl ⟨_, hwritten, hruns⟩
    · refine .inr (.inr (.inl ⟨hinclude, fun path system hwritten => ?_⟩))
      exact hpath ⟨path, system, hwritten⟩
  by_cases hword : ∃ k rest, b.Splits (Keyword.text k) rest
  · obtain ⟨k, rest, hk⟩ := hword
    have hrest : rest.Splits rest.firstWord rest.splitWord.2 :=
      (Text.splits_iff (hk.trim_rest hb)).mpr rfl
    by_cases hlacks : rest = [] ∧ k ∈ [Keyword.define, .undef, .ifdef, .ifndef]
    · exact .inr (.inl ⟨k, hlacks.2, hlacks.1 ▸ hk⟩)
    · have hname : k ∈ [Keyword.define, .undef, .ifdef, .ifndef] → rest.firstWord ≠ [] := by
        intro hmem hnone
        obtain ⟨_, _, _, _, hhead, _⟩ := hk
        exact hlacks ⟨Text.eq_nil_of_firstWord hhead hnone, hmem⟩
      refine .inl ?_
      cases k with
      | define => exact ⟨_, .define hk hrest (hname (by simp)), hruns⟩
      | undef => exact ⟨_, .undef hk hrest (hname (by simp)), hruns⟩
      | ifdef => exact ⟨_, .ifdef hk hrest (hname (by simp)), hruns⟩
      | ifndef => exact ⟨_, .ifndef hk hrest (hname (by simp)), hruns⟩
      | otherwise => exact ⟨_, .otherwise hk, hruns⟩
      | endif => exact ⟨_, .endif hk, hruns⟩
  · refine .inl ⟨_, .unsupported (fun k rest hk => hword ⟨k, rest, hk⟩) hinclude, hruns⟩

variable (line : Text)

theorem ofBody_of_splits {k : Keyword} {rest : Text} (h : b.Splits k.text rest) :
    ofBody line b = ofKeyword line rest k := by
  have hsplit := (Text.splits_iff hb).mp h
  simp only [ofBody, Text.firstWord, hsplit, Keyword.ofText?_text]

theorem ofBody_of_writtenAs {d : Directive} (h : WrittenAs d b) (hruns : ¬RunsOn b) :
    ofBody line b = .ok d := by
  have hnamed : ∀ {k rest name others}, b.Splits (Keyword.text k) rest → rest.Splits name others →
      name ≠ [] → ofBody line b = ofKeyword line rest k ∧ rest.splitWord = (name, others) ∧
        required name line = .ok name := fun hbody hrest hname =>
    ⟨ofBody_of_splits hb line hbody, (Text.splits_iff (hbody.trim_rest hb)).mp hrest, if_neg hname⟩
  cases h with
  | define hbody hrest hname | undef hbody hrest hname | ifdef hbody hrest hname
  | ifndef hbody hrest hname =>
      obtain ⟨hkeyword, hsplit, hrequired⟩ := hnamed hbody hrest hname
      rw [hkeyword]
      simp only [ofKeyword, Text.firstWord, hsplit, hrequired]
      rfl
  | otherwise hbody | endif hbody =>
      rw [ofBody_of_splits hb line hbody]
      rfl
  | @includeFile gap path others mark close system hgap hmarks hpath hclose =>
      have hmark : Unicode.isWhiteSpace mark = false := by cases hmarks <;> decide
      have hstart : Text.trimStart (gap ++ mark :: (path ++ close :: others)) =
          mark :: (path ++ close :: others) := by
        rw [Text.trimStart, List.dropWhile_append_of_pos hgap,
          List.dropWhile_cons_of_neg (by simp [hmark])]
      have hfound : includePath? (Text.trimStart (gap ++ mark :: (path ++ close :: others))) =
          some (path, system) :=
        includePath?_eq_some_iff.mpr ⟨mark, close, others, hmarks, hpath, hclose, hstart⟩
      exact ofBody_include line hfound
  | unsupported hword hinclude =>
      have hnot : ¬includeWord.isPrefixOf b = true := by
        intro hprefix
        obtain ⟨argument, rfl⟩ := List.isPrefixOf_iff_prefix.mp hprefix
        exact (includeLine_or_runsOn argument).elim hinclude hruns
      simp only [ofBody, ofText?_firstWord_eq_none hb hword, if_neg hnot]

theorem ofBody_of_lacksName (h : LacksName b) :
    ofBody line b = .error (.malformedDirective line 0 .missingName) := by
  obtain ⟨k, hk, hsplits⟩ := h
  rw [ofBody_of_splits hb line hsplits]
  cases k with
  | define | undef | ifdef | ifndef => rfl
  | otherwise | endif => simp at hk

end Body

/-- A text is read as the directive that it is written as, or it is at fault. -/
theorem parse_cases (text : Text) :
    (∃ d, WrittenAs d (body (line text)) ∧ ¬RunsOn (body (line text)) ∧ parse text = .ok d) ∨
      LacksName (body (line text)) ∧
        parse text = .error (.malformedDirective (line text) 0 .missingName) ∨
      (LacksPath (body (line text)) ∨ RunsOn (body (line text))) ∧
        parse text = .error (.malformedDirective (line text) 0 .badIncludePath) := by
  have hb := trim_body (line text)
  rcases exists_form hb with ⟨d, hwritten, hruns⟩ | hname | hpath | hruns
  · exact .inl ⟨d, hwritten, hruns, ofBody_of_writtenAs hb _ hwritten hruns⟩
  · exact .inr (.inl ⟨hname, ofBody_of_lacksName hb _ hname⟩)
  · exact .inr (.inr ⟨.inl hpath, ofBody_of_lacksPath hpath _⟩)
  · exact .inr (.inr ⟨.inr hruns, ofBody_of_runsOn hruns _⟩)

theorem writtenAs_of_parse {text : Text} {d : Directive} (h : parse text = .ok d) :
    WrittenAs d (body (line text)) ∧ ¬RunsOn (body (line text)) := by
  rcases parse_cases text with ⟨d', hwritten, hruns, hread⟩ | ⟨_, hread⟩ | ⟨_, hread⟩ <;>
    rw [hread] at h <;> cases h
  exact ⟨hwritten, hruns⟩

/-- A text is read as the directive that it is written as. It is an error just when a directive that
needs a name has none, or when what starts like an include line has no path. -/
theorem parse_iff (text : Text) :
    (∀ d, parse text = .ok d ↔ WrittenAs d (body (line text)) ∧ ¬RunsOn (body (line text))) ∧
      ∀ e, parse text = .error e ↔
        LacksName (body (line text)) ∧ e = .malformedDirective (line text) 0 .missingName ∨
        (LacksPath (body (line text)) ∨ RunsOn (body (line text))) ∧
          e = .malformedDirective (line text) 0 .badIncludePath := by
  have hb := trim_body (line text)
  refine ⟨fun d => ⟨writtenAs_of_parse, ?_⟩, fun e => ⟨fun h => ?_, ?_⟩⟩
  · rintro ⟨hwritten, hruns⟩
    exact ofBody_of_writtenAs hb _ hwritten hruns
  · rcases parse_cases text with ⟨d, _, _, hread⟩ | ⟨hname, hread⟩ | ⟨hpath, hread⟩ <;>
      rw [hread] at h <;> cases h
    · exact .inl ⟨hname, rfl⟩
    · exact .inr ⟨hpath, rfl⟩
  · rintro (⟨hname, rfl⟩ | ⟨hpath | hruns, rfl⟩)
    · exact ofBody_of_lacksName hb _ hname
    · exact ofBody_of_lacksPath hpath _
    · exact ofBody_of_runsOn hruns _

/-- A directive that is not known, and whose keyword starts like that of an include line. -/
theorem parse_of_include_next :
    parse "#include_next <a>".toList =
        .error (.malformedDirective "#include_next <a>".toList 0 .badIncludePath) ∧
      WrittenAs (.unsupported "include_next <a>".toList)
        (body (line "#include_next <a>".toList)) ∧
      ¬LacksName (body (line "#include_next <a>".toList)) ∧
      ¬LacksPath (body (line "#include_next <a>".toList)) := by
  have hbody : body (line "#include_next <a>".toList) = "include_next <a>".toList := by decide
  have htrim : Text.trim "include_next <a>".toList = "include_next <a>".toList := by decide
  have hword : ∀ k rest, ¬Text.Splits "include_next <a>".toList (Keyword.text k) rest := by
    intro k rest hsplits
    have hfirst : Text.firstWord "include_next <a>".toList = k.text :=
      congrArg Prod.fst ((Text.splits_iff htrim).mp hsplits)
    have hnot : Text.firstWord "include_next <a>".toList ≠ k.text := by cases k <;> decide
    exact hnot hfirst
  have hinclude : ¬IncludeLine "include_next <a>".toList := by
    rintro ⟨argument, hwhole, hhead⟩
    have hargument : "_next <a>".toList = argument := congrArg (List.drop includeWord.length) hwhole
    have hmark := hhead '_' (by rw [← hargument]; rfl)
    exact absurd hmark (by decide)
  rw [hbody]
  refine ⟨by decide, .unsupported hword hinclude, ?_, fun h => hinclude h.1⟩
  rintro ⟨k, _, hsplits⟩
  exact hword k [] hsplits

end Directive

end FreeForm
