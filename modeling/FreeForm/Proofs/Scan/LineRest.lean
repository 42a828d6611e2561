import FreeForm.Proofs.Scan.Characters

namespace FreeForm

/-!
# The rest of a line

Behind a lexeme, and behind a continuation mark at its front, a line is scanned as if it started
there.
-/

open Lexeme

namespace Line

theorem split_cons_cases (c : Char) (rest : Text) :
    (split (c :: rest)).1 = [] ∨ split (c :: rest) = (c :: (split rest).1, (split rest).2) := by
  by_cases hfeed : c = '\n' ∧ rest = []
  · obtain ⟨rfl, rfl⟩ := hfeed
    exact Or.inl rfl
  · by_cases hreturn : c = '\r' ∧ rest = ['\n']
    · obtain ⟨rfl, rfl⟩ := hreturn
      exact Or.inl rfl
    · right
      rw [split.eq_4]
      · intro hc hrest
        exact hfeed ⟨hc, hrest⟩
      · intro hc hrest
        exact hreturn ⟨hc, hrest⟩

/-- What stands behind a part of its content is the rest of a line. -/
theorem body_of_append {x y z : Text} (h : body (x ++ y) = x ++ z) :
    body y = z ∧ terminator (x ++ y) = terminator y := by
  induction x with
  | nil => exact ⟨h, rfl⟩
  | cons c x ih =>
      rw [List.cons_append] at h ⊢
      rcases split_cons_cases c (x ++ y) with hnil | hcons
      · rw [body, hnil] at h
        cases h
      · rw [body, hcons] at h
        rw [terminator, hcons]
        exact ih (List.cons.inj h).2

/-- A line that does not end with a line feed is all content. -/
theorem terminator_of_getLast? {t : Text} (h : t.getLast? ≠ some '\n') : terminator t = [] := by
  have hwhole := body_append_terminator t
  rcases terminator_cases t with hnone | hfeed | hreturn
  · exact hnone
  · rw [hfeed] at hwhole
    rw [← hwhole] at h
    simp at h
  · rw [hreturn] at hwhole
    rw [← hwhole] at h
    simp at h

theorem body_of_getLast? {t : Text} (h : t.getLast? ≠ some '\n') : body t = t := by
  have hwhole := body_append_terminator t
  rwa [terminator_of_getLast? h, List.append_nil] at hwhole

theorem terminator_of_not_mem {t : Text} (h : '\n' ∉ t) : terminator t = [] :=
  terminator_of_getLast? fun hlast => h (List.mem_of_getLast? hlast)

theorem body_of_not_mem {t : Text} (h : '\n' ∉ t) : body t = t :=
  body_of_getLast? fun hlast => h (List.mem_of_getLast? hlast)

theorem scanLine_none_eq_ok {t : Text} {ls : List Lexeme} {o : Option Char} :
    scanLine none t = .ok ⟨ls, o⟩ ↔ ∃ front,
      scanFresh (fun _ => none) (body t) = ⟨front, o, []⟩ ∧
        ls = front ++ [⟨.lineEnd, terminator t⟩] := by
  have hscan : scanLine none t = ScannedLine.ofScan t (scanFresh (fun _ => none) (body t)) := rfl
  rw [hscan]
  generalize scanFresh (fun _ => none) (body t) = s
  obtain ⟨front, opened, rest⟩ := s
  cases rest with
  | nil =>
      constructor
      · intro h
        cases h
        exact ⟨front, rfl, rfl⟩
      · rintro ⟨front', h, rfl⟩
        cases h
        rfl
  | cons c rest =>
      constructor
      · intro h
        cases h
      · rintro ⟨front', h, _⟩
        cases h

/-- A line of one lexeme holds nothing else in front of its end. -/
theorem scanFresh_of_scanLine_pair {t : Text} {m e : Lexeme} {o : Option Char}
    (h : scanLine none t = .ok ⟨[m, e], o⟩) :
    scanFresh (fun _ => none) (body t) = ⟨[m], o, []⟩ ∧ m.text = body t ∧
      e = ⟨.lineEnd, terminator t⟩ := by
  obtain ⟨front, hscan, hpair⟩ := scanLine_none_eq_ok.mp h
  have hlast : [m] ++ [e] = front ++ [⟨.lineEnd, terminator t⟩] := hpair
  obtain ⟨rfl, hend⟩ := List.append_inj' hlast rfl
  have hspelled := scanFresh_append (body t)
  rw [hscan] at hspelled
  exact ⟨hscan, by simpa using hspelled, List.singleton_inj.mp hend⟩

/-- What a text scans as with a line feed behind it, if it is one lexeme. With the line feed a carriage
return at the end of the text makes the line end. -/
theorem text_of_scanLine_feed {t : Text} {m e : Lexeme} {o : Option Char}
    (h : scanLine none (t ++ ['\n']) = .ok ⟨[m, e], o⟩) :
    m.text = if t.getLast? = some '\r' then t.dropLast else t := by
  obtain ⟨_, htext, _⟩ := scanFresh_of_scanLine_pair h
  rw [htext, body_append_feed]

theorem split_mark (t : Text) :
    split (continuationMark :: t) = (continuationMark :: (split t).1, (split t).2) := by
  rcases split_cons_cases continuationMark t with hnil | hcons
  · have hmark : body (continuationMark :: t) = continuationMark :: body t :=
      body_cons_of_ne (by decide) (by decide) t
    rw [body, hnil] at hmark
    cases hmark
  · exact hcons

/-- A continuation mark in front of a line is a lexeme of its own. -/
theorem scanLine_mark {t : Text} {ls : List Lexeme} {o : Option Char} :
    scanLine none (continuationMark :: t) = .ok ⟨ls, o⟩ ↔
      ∃ behind, ls = marker :: behind ∧ scanLine none t = .ok ⟨behind, o⟩ := by
  have hscan : scanFresh (fun _ => none) (body (continuationMark :: t)) =
      (scanFresh (fun _ => none) (body t)).after [marker] none := by
    rw [body, split_mark, scanFresh_mark]
    rfl
  have hend : terminator (continuationMark :: t) = terminator t := by
    rw [terminator, split_mark]
    rfl
  rw [scanLine_none_eq_ok, hscan, hend]
  constructor
  · rintro ⟨front, hfront, rfl⟩
    generalize hs : scanFresh (fun _ => none) (body t) = s at hfront
    obtain ⟨behind, opened, rest⟩ := s
    cases hfront
    exact ⟨_, rfl, scanLine_none_eq_ok.mpr ⟨behind, hs, rfl⟩⟩
  · rintro ⟨behind, rfl, hbehind⟩
    obtain ⟨front, hfront, rfl⟩ := scanLine_none_eq_ok.mp hbehind
    refine ⟨marker :: front, ?_, rfl⟩
    rw [hfront]
    rfl

/-- A line is scanned up to one of its lexemes and from there on. -/
theorem exists_reads_of_scanLine {a w b : Text} {kind : Kind} (hkind : IsDivisible kind)
    {before after : List Lexeme} {o : Option Char} (ha : concat before = a)
    (hscan : scanLine none (a ++ (w ++ b)) = .ok ⟨before ++ ⟨kind, w⟩ :: after, o⟩) :
    Reads (a ++ (w ++ body b)) before (w ++ body b) ∧
      Piece.first? (w ++ body b) = some ⟨⟨kind, w⟩, body b, none⟩ ∧
      scanLine none b = .ok ⟨after, o⟩ := by
  obtain ⟨front, hfront, hlexemes⟩ := scanLine_none_eq_ok.mp hscan
  obtain ⟨behind, rfl, rfl⟩ : ∃ behind,
      after = behind ++ [⟨.lineEnd, terminator (a ++ (w ++ b))⟩] ∧
      front = before ++ ⟨kind, w⟩ :: behind := by
    rcases List.eq_nil_or_concat after with rfl | ⟨behind, l, rfl⟩
    · have hlast := List.singleton_inj.mp (List.append_inj' hlexemes rfl).2
      rw [show kind = .lineEnd from congrArg Lexeme.kind hlast] at hkind
      simp [IsDivisible] at hkind
    · rw [List.concat_eq_append, ← List.cons_append, ← List.append_assoc] at hlexemes
      obtain ⟨hfront', hl⟩ := List.append_inj' hlexemes rfl
      exact ⟨behind, by rw [List.concat_eq_append, hl], hfront'.symm⟩
  have hread : (scanFresh (fun _ => none) (body (a ++ (w ++ b)))).lexemes =
      before ++ ⟨kind, w⟩ :: behind := congrArg Scan.lexemes hfront
  obtain ⟨rest, hreads, hfirst, hbehind⟩ := exists_reads (l := ⟨kind, w⟩) hkind hread
  have hbody : body (a ++ (w ++ b)) = a ++ (w ++ rest) := by
    rw [hreads.eq_append, ha]
  have hrest : scanFresh (fun _ => none) rest = ⟨behind, o, []⟩ := by
    have hwhole := hreads.scanFresh
    rw [hfront, scanFresh_of_first? hfirst] at hwhole
    generalize scanFresh (fun _ => none) rest = s at hwhole hbehind
    obtain ⟨lexemes, opened, left⟩ := s
    obtain rfl : lexemes = behind := hbehind
    obtain rfl : o = opened := congrArg Scan.openDelimiter hwhole
    obtain rfl : [] = left := congrArg Scan.rest hwhole
    rfl
  have hcut : body ((a ++ w) ++ b) = (a ++ w) ++ rest := by
    rw [List.append_assoc, hbody, List.append_assoc]
  obtain ⟨rfl, hend⟩ := body_of_append hcut
  rw [List.append_assoc] at hend
  rw [hbody] at hreads
  refine ⟨hreads, hfirst, scanLine_none_eq_ok.mpr ⟨behind, hrest, ?_⟩⟩
  rw [hend]

theorem any_head?_append {v : Text} (hv : v ≠ []) (hwordy : ∀ c ∈ v, isWordy c = true) (b : Text) :
    (v ++ b).head?.any isWordy = true := by
  obtain ⟨c, v, rfl⟩ := List.exists_cons_of_ne_nil hv
  exact hwordy c List.mem_cons_self

/-- Content at the end of a line is content of all of it. -/
theorem body_append_of_ne_nil {u : Text} (hu : body u ≠ []) (v : Text) :
    body (v ++ u) = v ++ body u := by
  induction v with
  | nil => rfl
  | cons c v ih =>
      rw [List.cons_append, body, split.eq_4, List.cons_append, ← ih]
      · rfl
      · intro _ hnil
        rw [hnil] at ih
        exact hu (List.append_eq_nil_iff.mp ih.symm).2
      · intro _ hfeed
        rw [hfeed] at ih
        exact hu (List.append_eq_nil_iff.mp ih.symm).2

/-- A line that is a lexeme and the rest of the line. -/
structure Starts (l : Lexeme) (u : Text) (o : Option Char) : Prop where
  content : body (l.text ++ u) = l.text ++ body u
  first : Piece.first? (l.text ++ body u) = some ⟨l, body u, o⟩

theorem Starts.scanLine {l : Lexeme} {u : Text} {o o' : Option Char} (h : Starts l u o)
    {ls : List Lexeme} (hu : scanLine none u = .ok ⟨ls, o'⟩) :
    scanLine none (l.text ++ u) = .ok ⟨l :: ls, o <|> o'⟩ := by
  obtain ⟨front, hfront, rfl⟩ := scanLine_none_eq_ok.mp hu
  rw [scanLine_none_eq_ok, h.content, scanFresh_of_first? h.first, hfront, (body_of_append h.content).2]
  exact ⟨l :: front, rfl, rfl⟩

/-- A line with more than its end starts with its first lexeme. -/
theorem exists_starts_of_scanLine {t : Text} {l : Lexeme} {ls : List Lexeme} {o : Option Char}
    (h : scanLine none t = .ok ⟨l :: ls, o⟩) (hls : ls ≠ []) :
    ∃ u o₁ o₂, t = l.text ++ u ∧ Starts l u o₁ ∧ scanLine none u = .ok ⟨ls, o₂⟩ ∧
      o = (o₁ <|> o₂) := by
  obtain ⟨front, hfront, hlexemes⟩ := scanLine_none_eq_ok.mp h
  obtain ⟨behind, rfl, rfl⟩ : ∃ behind, front = l :: behind ∧
      ls = behind ++ [⟨.lineEnd, terminator t⟩] := by
    cases front with
    | nil => exact absurd (List.cons.inj hlexemes).2 hls
    | cons m behind =>
        obtain ⟨rfl, hbehind⟩ := List.cons.inj hlexemes
        exact ⟨behind, rfl, hbehind⟩
  obtain ⟨r, o₁, hbody, hfirst, hbehind⟩ := first?_of_scanFresh (congrArg Scan.lexemes hfront)
  have hline : t = l.text ++ (r ++ terminator t) := by
    rw [← List.append_assoc, ← hbody, body_append_terminator]
  have hcut : body (l.text ++ (r ++ terminator t)) = l.text ++ r := by rw [← hline, hbody]
  obtain ⟨hrest, hend⟩ := body_of_append hcut
  rw [← hline] at hend
  rw [hbody, scanFresh_of_first? hfirst] at hfront
  have hr : scanFresh (fun _ => none) r = ⟨behind, (scanFresh (fun _ => none) r).openDelimiter, []⟩ := by
    have hleft : (scanFresh (fun _ => none) r).rest = [] := congrArg Scan.rest hfront
    rw [← hbehind, ← hleft]
  refine ⟨r ++ terminator t, o₁, (scanFresh (fun _ => none) r).openDelimiter, hline,
    ⟨by rw [hcut, hrest], by rwa [hrest]⟩, ?_, (congrArg Scan.openDelimiter hfront).symm⟩
  rw [scanLine_none_eq_ok, hrest, ← hend]
  exact ⟨behind, hr, rfl⟩

/-- What a line starts with is a token, if its first character is one of a name, a number or an
operator. -/
theorem scanLine_wordy {t : Text} (ht : t.head?.any isWordy = true) {l : Lexeme}
    {ls : List Lexeme} {o : Option Char} (h : scanLine none t = .ok ⟨l :: ls, o⟩) :
    l.role = .semantic ∧ l.text.head?.any isWordy = true ∧ ∃ rest o', t = l.text ++ rest ∧
      body t = l.text ++ body rest ∧ scanLine none rest = .ok ⟨ls, o'⟩ := by
  obtain ⟨c, t, rfl⟩ : ∃ c rest, t = c :: rest := by
    cases t with
    | nil => cases ht
    | cons c t => exact ⟨c, t, rfl⟩
  have hc : isWordy c = true := ht
  have hbody : body (c :: t) = c :: body t := by
    apply body_cons_of_ne
    · rintro rfl
      cases hc
    · rintro rfl
      cases hc
  have hls : ls ≠ [] := by
    rintro rfl
    obtain ⟨front, hfront, hlexemes⟩ := scanLine_none_eq_ok.mp h
    obtain rfl : front = [] := by
      have hlength := congrArg List.length hlexemes
      simpa using hlength
    have hspelled := scanFresh_append (body (c :: t))
    rw [hfront, hbody] at hspelled
    cases hspelled
  obtain ⟨u, o₁, o₂, hline, hstarts, hrest, _⟩ := exists_starts_of_scanLine h hls
  have hcontent : l.text ++ body u = c :: body t := by rw [← hstarts.content, ← hline, hbody]
  have hfirst := hstarts.first
  rw [hcontent] at hfirst
  refine ⟨role_of_first? hc hfirst, ?_, u, o₂, hline, by rw [hcontent, hbody], hrest⟩
  obtain ⟨d, text, hd⟩ := List.exists_cons_of_ne_nil (Piece.first?_text_ne_nil hfirst)
  dsimp only at hd
  rw [hd, List.cons_append] at hcontent
  rw [hd, (List.cons.inj hcontent).1]
  exact hc

end Line

end FreeForm
