import SqlScript.Proofs.Spelling

/-!
# Rendering a script and reading it again

The canonical spelling of a well-formed script is read without an error, as the script with its
reals read back (`parseScript_render`); a script that is not well formed is never read back that
way (`wellFormed_iff_parseScript_render`). Every script that comes out of a text is well formed,
so rendering what was read and reading it again is stable from the first time on
(`parseScript_render_parseScript`).
-/

namespace SqlScript

/-- A tape of sentences, one behind another, is read as what they write. -/
theorem Tape.attempts_flatMap {f : Statement → List Token} {g : Statement → Statement}
    {sts : List Statement} (h : ∀ st ∈ sts, Derives (f st) (g st)) (l : Location) :
    (attempts (⟨sts.flatMap f, l⟩ : Tape)).1 = sts.map fun st => .parsed (g st) := by
  induction sts with
  | nil => rw [List.flatMap_nil, attempts_of_isEnd rfl, List.map_nil]
  | cons st sts ih =>
    obtain ⟨hst, hsts⟩ := List.forall_mem_cons.1 h
    have hrun := (Grammar.reads_statement _ l _ _).2 ⟨f st, sts.flatMap f, rfl, hst, trivial, rfl⟩
    have hat : attempt (⟨f st ++ sts.flatMap f, l⟩ : Tape) =
        (.parsed (g st), ⟨sts.flatMap f, l⟩) := by
      unfold attempt
      rw [hrun]
      rfl
    have hpeek : (TokenSource.peek (⟨f st ++ sts.flatMap f, l⟩ : Tape)).1.isEnd = false := by
      obtain ⟨t, q, hq, hk⟩ := hst.exists_cons
      rw [hq]
      simp [TokenSource.peek, Tape.peek, Token.isEnd, hk]
    rw [List.flatMap_cons, attempts_of_not_isEnd hpeek, Tape.snd_peek, hat, ih hsts, List.map_cons]

/-- **A well-formed script is read back**, but for the digits that its reals lose. -/
theorem parseScript_render {s : Script} (h : s.WellFormed) :
    parseScript s.render = ⟨s.reread, []⟩ := by
  have hp := relocate_parseScript (Script.words_render h)
  rw [parse, Script.words, Tape.attempts_flatMap fun st hst => Statement.derives_words (h st hst)]
    at hp
  have hs : (parseScript s.render).script = s.reread := by
    have := congrArg Outcome.script hp
    simpa [Outcome.relocate, Outcome.ofAttempts, List.filterMap_map, Function.comp_def,
      Attempt.statement?, Script.reread] using this
  have he : (parseScript s.render).errors = [] := by
    have := congrArg Outcome.errors hp
    simpa [Outcome.relocate, Outcome.ofAttempts, List.filterMap_map, Function.comp_def,
      Attempt.error?] using this
  rw [← hs, ← he]

/-- **Exactly the well-formed scripts are read back from their spelling.** Nothing of them is
changed but the finite reals; each becomes the number that its six places read back as, which
exists and has the same sign. -/
theorem wellFormed_iff_parseScript_render (s : Script) :
    (s.WellFormed ↔
      (parseScript s.render).errors = [] ∧ (parseScript s.render).script = s.reread) ∧
    ∀ v : Binary32, v.isFinite = true →
      Numeral.real? v.sixPlaces.toList = some v.reread ∧
        v.reread.negative = v.negative := by
  refine ⟨⟨fun h => ?_, fun ⟨_, h⟩ => ?_⟩, fun v hv => ?_⟩
  · rw [parseScript_render h]
    exact ⟨rfl, rfl⟩
  · rw [← s.wellFormed_reread_iff, ← h]
    exact wellFormed_parseScript s.render
  · exact ⟨Binary32.real?_sixPlaces hv, v.negative_reread⟩

/-- **Reading, rendering and reading again is stable.** Whatever the text, the statements that
could be read from it are rendered as a script without errors, of as many statements and with the
same spelling; what is read from that is read again unchanged. It agrees with the first script
exactly if every real of that one agrees with the number that its six places read back as; this is
so if all of them are at least 16, the more so if there are none. -/
theorem parseScript_render_parseScript (text : String) :
    let first := (parseScript text).script
    let second := parseScript first.render
    let third := parseScript second.script.render
    second.errors = [] ∧ second.script.length = first.length ∧
      second.script.render = first.render ∧
      third.script = second.script ∧ third.script.agrees second.script = true ∧
      (second.script.agrees first = true ↔ ∀ v ∈ first.reals,
        ∃ w, Numeral.real? v.sixPlaces.toList = some w ∧ w.agrees v = true) ∧
      ((∀ v ∈ first.reals, 16 * 2 ^ 149 ≤ v.units) →
        second.script = first ∧ second.script.agrees first = true) := by
  intro first second third
  have hw : first.WellFormed := wellFormed_parseScript text
  have hw' : first.reread.WellFormed := first.wellFormed_reread_iff.2 hw
  have hfin := Script.isFinite_of_mem_reals hw
  have h₂ : second = ⟨first.reread, []⟩ := parseScript_render hw
  have h₃ : third = ⟨first.reread, []⟩ := by
    simp only [third, h₂, parseScript_render hw', Script.reread_reread]
  rw [h₂, h₃]
  refine ⟨rfl, ?_, first.render_reread, rfl, ?_, ?_, fun h16 => ?_⟩
  · simp [Script.reread, Script.length]
  · exact Script.agrees_self hw' first.reread_reread
  · rw [first.agrees_reread_iff]
    refine forall₂_congr fun v hv => ?_
    simp [Binary32.real?_sixPlaces (hfin v hv)]
  · have hself : first.reread = first := first.reread_eq_self_iff.2 fun v hv =>
      Binary32.reread_eq_self (hfin v hv) (h16 v hv)
    simp only [hself]
    exact ⟨trivial, Script.agrees_self hw hself⟩

end SqlScript
