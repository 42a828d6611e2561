import FreeForm.Proofs.Draft.Bare
import FreeForm.Proofs.Lexer.Requests
import FreeForm.Proofs.Reader.Parts

namespace FreeForm

/-!
# Streaming conserves the source

At every moment the statements yielded, the liminal text and the lexemes that wait in the lexer, and
the lines not yet read make up the source. Only an error loses text, and then what was yielded is
still the front of the source.
-/

namespace Source

/-- The text in front of the first fault. -/
def text (source : Source) : Text :=
  source.readable.flatten

@[simp] theorem text_nil : text [] = [] := rfl

@[simp] theorem text_cons_ok (line : Text) (source : Source) :
    text (.ok line :: source) = line ++ text source := rfl

theorem text_map_ok (lines : List Text) : text (lines.map .ok) = lines.flatten := by
  induction lines with
  | nil => rfl
  | cons line lines ih => simp [ih]

@[simp] theorem text_ofText (t : Text) : text (ofText t) = t := by
  rw [ofText, text_map_ok, Text.lines_flatten]

end Source

def Yield.source : Yield → Text
  | .statement s => s.source
  | .failure _ | .finished => []

namespace Phase

def source : Phase → Text
  | .building d => d.source
  | .complete s ahead => s.source ++ ahead.flatten

def Fresh : Phase → Prop
  | .building d => d.Fresh
  | .complete _ _ => True

@[simp] theorem source_addLiminals (phase : Phase) (liminals : List Text) :
    (phase.addLiminals liminals).source = phase.source ++ liminals.flatten := by
  cases phase <;> simp [addLiminals, source]

theorem Fresh.addLiminals {phase : Phase} (h : phase.Fresh) (liminals : List Text) :
    (phase.addLiminals liminals).Fresh := by
  cases phase with
  | building d => exact Draft.Fresh.addLiminals h liminals
  | complete s ahead => trivial

end Phase

@[simp] theorem Draft.source_ofLiminals (liminals : List Text) :
    (Draft.ofLiminals liminals).source = liminals.flatten := rfl

namespace Lexer

/-- The text that no yielded statement holds. -/
def outstanding (x : Lexer) : Text :=
  x.pending.flatten ++ Lexeme.concat x.cache ++ x.lines.text

end Lexer

/-- A step that has a text in front of it: the yield and what is left make it up, and if the step
ends in an error, the yield is its front. An error is yielded at once or behind a statement. -/
structure Step.Conserves (step : Step) (t : Text) : Prop where
  whole : step.lexer.status = .ready → step.yield.source ++ step.lexer.outstanding = t
  front : step.yield.source <+: t
  told : step.lexer.status = .failed → ∃ e, step.yield = .failure e
  owed : ∀ e, step.lexer.status = .deferred e → ∃ s, step.yield = .statement s

theorem Step.Conserves.after {step : Step} {t : Text} (h : step.Conserves t)
    (events : List Event) : (step.after events).Conserves t :=
  ⟨h.whole, h.front, h.told, h.owed⟩

/-- A step that leaves the lexer ready has told all errors. -/
theorem Step.conserves_of_ready {step : Step} {t : Text} (hstatus : step.lexer.status = .ready)
    (h : step.yield.source ++ step.lexer.outstanding = t) : step.Conserves t :=
  ⟨fun _ => h, ⟨_, h⟩, fun hfailed => by simp [hstatus] at hfailed,
    fun e he => by simp [hstatus] at he⟩

namespace Lexer

theorem conserves_failure (e : LexError) (x : Lexer) (hx : x.status = .failed)
    (events : List Event) (t : Text) : Step.Conserves ⟨.failure e, x, events⟩ t :=
  ⟨fun h => by simp [hx] at h, List.nil_prefix, fun _ => ⟨e, rfl⟩, fun e' he => by simp [hx] at he⟩

theorem conserves_atEnd (r : Reader) (phase : Phase) : (atEnd r phase).Conserves phase.source := by
  cases phase with
  | building d =>
      simp only [atEnd, Phase.source]
      split
      · rename_i hnone
        have htokens := Draft.statement?_eq_none_iff_tokens.mp hnone
        exact Step.conserves_of_ready rfl
          (by simp [Yield.source, outstanding, Draft.source, htokens])
      · rename_i s hs
        rw [← Draft.source_of_statement? hs]
        exact Step.conserves_of_ready rfl (by simp [Yield.source, outstanding])
  | complete s ahead =>
      exact Step.conserves_of_ready rfl
        (by simp [atEnd, Yield.source, outstanding, Phase.source])

theorem conserves_atError (r : Reader) (lines : Source) (e : LexError) (phase : Phase)
    (t : Text) : (atError r lines e phase).Conserves (phase.source ++ t) := by
  cases phase with
  | building d => exact conserves_failure e _ rfl [] _
  | complete s ahead =>
      refine ⟨fun h => ?_, ?_, fun h => ?_, fun _ _ => ⟨s, rfl⟩⟩
      · simp [atError] at h
      · simp [atError, Yield.source, Phase.source, List.append_assoc]
      · simp [atError] at h

section Line

variable {lines : Source} {next : Reader → Phase → Step}

theorem conserves_consume
    (hnext : ∀ r phase, phase.Fresh → (next r phase).Conserves (phase.source ++ lines.text))
    (r : Reader) {d : Draft} (hd : d.Fresh) (content : List Lexeme)
    (hmarks : d.tokens ≠ [] →
      ∀ l ∈ content, l.kind = .continuation → l.text = Continuation.mark) :
    (consume r lines next d content).Conserves
      (d.source ++ Lexeme.concat content ++ lines.text) := by
  unfold consume
  split
  · exact conserves_failure _ _ rfl [] _
  · rename_i d' rest joined hresume
    rw [← Draft.source_of_resume hd hmarks hresume]
    have htake := Draft.source_take r.macros rest d'
    dsimp only
    apply Step.Conserves.after
    split
    · rename_i d'' hopen
      rw [hopen] at htake
      rw [← htake]
      exact hnext r (.building d'') ((hd.of_resume hresume).of_take hopen)
    · rename_i s hclosed
      rw [hclosed] at htake
      simpa [← htake, Draft.Progress.source, Phase.source] using hnext r (.complete s []) trivial
    · rename_i s l ls hclosed
      rw [hclosed] at htake
      exact Step.conserves_of_ready rfl
        (by simp [Yield.source, outstanding, ← htake, Draft.Progress.source])

theorem conserves_atContent
    (hnext : ∀ r phase, phase.Fresh → (next r phase).Conserves (phase.source ++ lines.text))
    (r : Reader) {phase : Phase} (hphase : phase.Fresh) {content : List Lexeme}
    (hmarks : ∀ l ∈ content, l.kind = .continuation → l.text = Continuation.mark) :
    (atContent r lines next content phase).Conserves
      (phase.source ++ Lexeme.concat content ++ lines.text) := by
  cases phase with
  | building d => exact conserves_consume hnext r hphase content fun _ => hmarks
  | complete s ahead =>
      exact Step.conserves_of_ready rfl
        (by simp [atContent, Yield.source, outstanding, Phase.source])

end Line

theorem conserves_advance (env : Environment) (lines : Source) (r : Reader) (phase : Phase)
    (h : phase.Fresh) : (advance env lines r phase).Conserves (phase.source ++ lines.text) := by
  induction lines generalizing r phase with
  | nil => simpa [advance] using conserves_atEnd r phase
  | cons line lines ih =>
      unfold advance
      dsimp only
      apply Step.Conserves.after
      split
      · exact conserves_atError _ lines _ phase _
      · rename_i parts hparts
        cases line with
        | error fault => cases hparts
        | ok text =>
            have htext : (phase.addLiminals parts.lead).source ++ Lexeme.concat parts.content ++
                Source.text lines = phase.source ++ Source.text (.ok text :: lines) := by
              simp [← Reader.text_of_read hparts, LineParts.text]
            rw [← htext]
            split
            · rename_i hnil
              simpa [hnil] using ih (r.read env (.ok text)).reader _ (h.addLiminals parts.lead)
            · rename_i l ls hcontent
              rw [hcontent]
              exact conserves_atContent (fun r phase hp => ih r phase hp) _
                (h.addLiminals parts.lead)
                fun m hm => Reader.mark_of_mem_content hparts (hcontent ▸ hm)

theorem conserves_next (env : Environment) {x : Lexer} (hx : x.status ≠ .failed) :
    (x.next env).Conserves x.outstanding := by
  unfold next
  split
  · exact absurd ‹_› hx
  · exact conserves_failure _ _ rfl [] _
  · have hfresh := Draft.fresh_ofLiminals x.pending
    split
    · rename_i hcache
      simpa [outstanding, hcache, Phase.source] using
        conserves_advance env x.lines x.reader (.building (.ofLiminals x.pending)) hfresh
    · rename_i l ls hcache
      simpa [outstanding, hcache] using
        conserves_consume (conserves_advance env x.lines) x.reader hfresh (l :: ls)
          fun h => absurd rfl h

/-- A lexer that has met an error yields no more text. -/
theorem source_request_eq_nil (env : Environment) {x : Lexer} (h : x.status ≠ .ready) (n : Nat) :
    (x.request env n).1.flatMap Yield.source = [] ∧ (x.request env n).2.status ≠ .ready := by
  induction n generalizing x with
  | zero => exact ⟨rfl, h⟩
  | succ n ih =>
      cases hs : x.status with
      | ready => exact absurd hs h
      | deferred e =>
          simpa [request, next_of_deferred env hs, Yield.source] using
            ih (x := { x with status := .failed }) (by simp)
      | failed => simpa [request, next_of_failed env hs, Yield.source] using ih h

/-- What one request conserves, a row of requests conserves. -/
theorem conserves_request (env : Environment) {x : Lexer} (hx : x.status = .ready) (n : Nat) :
    ((x.request env n).2.status = .ready →
      (x.request env n).1.flatMap Yield.source ++ (x.request env n).2.outstanding =
        x.outstanding) ∧
    (x.request env n).1.flatMap Yield.source <+: x.outstanding := by
  induction n generalizing x with
  | zero => simp [request]
  | succ n ih =>
      have hstep := conserves_next env (x := x) (by simp [hx])
      simp only [request, List.flatMap_cons]
      by_cases hready : (x.next env).lexer.status = .ready
      · have hwhole := hstep.whole hready
        obtain ⟨hlater, hfront⟩ := ih hready
        rw [← hwhole, List.append_assoc]
        exact ⟨fun h => by rw [hlater h], (List.prefix_append_right_inj _).2 hfront⟩
      · obtain ⟨hnil, hstatus⟩ := source_request_eq_nil env hready n
        rw [hnil, List.append_nil]
        exact ⟨fun h => absurd h hstatus, hstep.front⟩

theorem failure_of_status_request (env : Environment) {x : Lexer} (hx : x.status ≠ .failed)
    (n : Nat) (h : (x.request env n).2.status = .failed) :
    ∃ e, .failure e ∈ (x.request env n).1 := by
  induction n generalizing x with
  | zero => exact absurd h hx
  | succ n ih =>
      by_cases hnext : (x.next env).lexer.status = .failed
      · obtain ⟨e, he⟩ := (conserves_next env hx).told hnext
        exact ⟨e, by simp [request, he]⟩
      · obtain ⟨e, he⟩ := ih hnext h
        exact ⟨e, List.mem_cons_of_mem _ he⟩

/-- After any number of requests for the statements of some lines: as long as no error was yielded
or is owed, the statements, the liminal text and the lexemes kept and the lines not yet read make up
the lines. The statements are the front of the lines in any case. -/
theorem statements_append_outstanding (env : Environment) (lines : List Text)
    (macros : MacroTable) (name : Option Path) (n : Nat) :
    let yields := ((start (lines.map .ok) macros name).request env n).1
    let x := ((start (lines.map .ok) macros name).request env n).2
    ((∀ e, .failure e ∉ yields) → (∀ e, x.status ≠ .deferred e) →
      yields.flatMap Yield.source ++ x.pending.flatten ++ Lexeme.concat x.cache ++ x.lines.text =
        lines.flatten) ∧
    yields.flatMap Yield.source <+: lines.flatten := by
  intro yields x
  have hstart : (start (lines.map .ok) macros name).outstanding = lines.flatten := by
    simp [start, outstanding, Source.text_map_ok]
  obtain ⟨hwhole, hfront⟩ :=
    conserves_request env (x := start (lines.map .ok) macros name) rfl n
  rw [hstart] at hwhole hfront
  refine ⟨fun hfailure hdeferred => ?_, hfront⟩
  have hready : x.status = .ready := by
    cases hs : x.status with
    | ready => rfl
    | deferred e => exact absurd hs (hdeferred e)
    | failed =>
        obtain ⟨e, he⟩ := failure_of_status_request env (by simp [start]) n hs
        exact absurd he (hfailure e)
  simpa only [outstanding, List.append_assoc] using hwhole hready

theorem statements_append_outstanding_of_cached :
    (((start (["a; b\n".toList, "c".toList].map .ok) .empty none).request
        ⟨.none, [], 0, none⟩ 1).2.cache ≠ []) ∧
      ((start (["a; b\n".toList, "c".toList].map .ok) .empty none).request
          ⟨.none, [], 0, none⟩ 1).1.flatMap Yield.source ++
        ((start (["a; b\n".toList, "c".toList].map .ok) .empty none).request
          ⟨.none, [], 0, none⟩ 1).2.pending.flatten ++
        Lexeme.concat ((start (["a; b\n".toList, "c".toList].map .ok) .empty none).request
          ⟨.none, [], 0, none⟩ 1).2.cache ++
        Source.text ((start (["a; b\n".toList, "c".toList].map .ok) .empty none).request
          ⟨.none, [], 0, none⟩ 1).2.lines = "a; b\nc".toList := by
  have hyields : (((start (["a; b\n".toList, "c".toList].map .ok) .empty none).request
      ⟨.none, [], 0, none⟩ 1).1.all fun | .failure _ => false | _ => true) = true := by
    decide +kernel
  have hready : ((start (["a; b\n".toList, "c".toList].map .ok) .empty none).request
      ⟨.none, [], 0, none⟩ 1).2.status = .ready := by
    decide +kernel
  refine ⟨by decide +kernel, ?_⟩
  apply (statements_append_outstanding ⟨.none, [], 0, none⟩ ["a; b\n".toList, "c".toList] .empty
    none 1).1
  · intro e he
    have hfailure := List.all_eq_true.mp hyields _ he
    cases hfailure
  · intro e he
    rw [hready] at he
    cases he

end Lexer

end FreeForm
