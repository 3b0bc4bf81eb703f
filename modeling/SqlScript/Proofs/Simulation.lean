import SqlScript.Proofs.Coupling

/-!
# Scripts in step on two sources

`Simulation f R` says that `R` relates sources that show the same tokens, those of the second
source standing elsewhere: `f` says where. Such sources may be looked at and taken from at will.
Then every attempt at a statement comes to the same on both (`Simulation.attempt`), and so does a
whole script (`Simulation.attempts`, `Simulation.parse`), except that the errors name the token
where it stands.

The first example is a tape with its positions replaced (`Tape.simulation_relocate`).
-/

namespace SqlScript

open TokenSource

/-- The same token, elsewhere. -/
def Token.relocate (f : Location → Location) (t : Token) : Token :=
  { t with location := f t.location }

/-- The same failure, elsewhere. -/
def SyntaxError.relocate (f : Location → Location) (e : SyntaxError) : SyntaxError :=
  { e with token := e.token.relocate f }

/-- The same attempt, elsewhere. -/
def Attempt.relocate (f : Location → Location) : Attempt → Attempt
  | parsed s => parsed s
  | recovered e n => recovered (e.relocate f) n

/-- The same outcome, with its errors elsewhere. -/
def Outcome.relocate (f : Location → Location) (o : Outcome) : Outcome :=
  { o with errors := o.errors.map (SyntaxError.relocate f) }

@[simp] theorem Token.kind_relocate (f : Location → Location) (t : Token) :
    (t.relocate f).kind = t.kind := rfl

@[simp] theorem Token.text_relocate (f : Location → Location) (t : Token) :
    (t.relocate f).text = t.text := rfl

@[simp] theorem Token.isEnd_relocate (f : Location → Location) (t : Token) :
    (t.relocate f).isEnd = t.isEnd := rfl

@[simp] theorem Token.relocate_id : Token.relocate id = id := rfl

@[simp] theorem SyntaxError.relocate_id : SyntaxError.relocate id = id := rfl

@[simp] theorem Attempt.relocate_id : Attempt.relocate id = id := by
  funext a
  cases a <;> rfl

@[simp] theorem Outcome.relocate_id (o : Outcome) : o.relocate id = o := by
  simp [relocate]

@[simp] theorem Attempt.statement?_relocate (f : Location → Location) (a : Attempt) :
    (a.relocate f).statement? = a.statement? := by
  cases a <;> rfl

@[simp] theorem Attempt.error?_relocate (f : Location → Location) (a : Attempt) :
    (a.relocate f).error? = a.error?.map (SyntaxError.relocate f) := by
  cases a <;> rfl

theorem Outcome.ofAttempts_map_relocate (f : Location → Location) (as : List Attempt) :
    Outcome.ofAttempts (as.map (Attempt.relocate f)) = (Outcome.ofAttempts as).relocate f := by
  simp only [ofAttempts, relocate, List.filterMap_map, Function.comp_def, List.map_filterMap,
    Attempt.statement?_relocate, Attempt.error?_relocate]

variable {σ τ : Type} [TokenSource σ] [TokenSource τ]

/-! ## The attempts, one after another -/

theorem attemptsOnto_eq (acc : Array Attempt) (s : σ) :
    attemptsOnto acc s = (acc ++ (attemptsOnto #[] s).1, (attemptsOnto #[] s).2) := by
  suffices ∀ acc' : Array Attempt, attemptsOnto (acc ++ acc') s =
      (acc ++ (attemptsOnto acc' s).1, (attemptsOnto acc' s).2) by
    rw [← this, Array.append_empty]
  intro acc'
  fun_induction attemptsOnto acc' s with
  | case1 acc' s r h => rw [attemptsOnto, if_pos h]
  | case2 acc' s r h a ih =>
    rw [attemptsOnto, if_neg h]
    simpa using ih

theorem attempts_of_isEnd {s : σ} (h : (peek s).1.isEnd = true) :
    attempts s = ([], (peek s).2) := by
  simp only [attempts]
  rw [attemptsOnto, if_pos h]

/-- In front of a token an attempt is made, and then the others. -/
theorem attempts_of_not_isEnd {s : σ} (h : (peek s).1.isEnd = false) :
    attempts s = ((attempt (peek s).2).1 :: (attempts (attempt (peek s).2).2).1,
      (attempts (attempt (peek s).2).2).2) := by
  simp only [attempts]
  rw [attemptsOnto, if_neg (by simp [h]), attemptsOnto_eq]
  simp

/-- An attempt in front of a token makes the source smaller, also after a look. -/
theorem size_attempt_peek_lt {s : σ} (h : (peek s).1.isEnd = false) :
    size (attempt (peek s).2).2 < size s := by
  refine Nat.lt_of_lt_of_le (size_attempt_lt ?_) (size_peek_le s)
  rw [take_peek, ← fst_peek]
  exact h

/-! ## Simulation -/

/-- `R` relates sources that show the same tokens, those of the second one where `f` says, and
goes on relating them whatever is done to both. -/
structure Simulation (f : Location → Location) (R : σ → τ → Prop) : Prop where
  fst_peek : ∀ {s t}, R s t → (peek t).1 = (peek s).1.relocate f
  peek : ∀ {s t}, R s t → R (peek s).2 (peek t).2
  take : ∀ {s t}, R s t → R (take s).2 (take t).2
  note : ∀ {s t} (e e' : Event), R s t → R (note e s) (note e' t)

namespace Simulation

variable {f : Location → Location} {R : σ → τ → Prop}

theorem coupling (hR : Simulation f R) : Coupling R where
  kind_peek h := by rw [hR.fst_peek h, Token.kind_relocate]
  text_peek h := by rw [hR.fst_peek h, Token.text_relocate]
  peek := hR.peek
  take h _ := hR.take h

theorem fst_take (hR : Simulation f R) {s : σ} {t : τ} (h : R s t) :
    (TokenSource.take t).1 = (TokenSource.take s).1.relocate f := by
  rw [← TokenSource.fst_peek, ← TokenSource.fst_peek, hR.fst_peek h]

theorem statement (hR : Simulation f R) : Rule.Coupled R R Grammar.statement Grammar.statement :=
  Grammar.statement_coupled hR.coupling fun h _ => hR.take h

theorem skipFrom (hR : Simulation f R) (n : Nat) {s : σ} {t : τ} (h : R s t) :
    (skipFrom n t).1 = (skipFrom n s).1 ∧ R (skipFrom n s).2 (skipFrom n t).2 := by
  -- by induction on the size of the first source, which every token but the last lowers
  induction hz : size s using Nat.strongRecOn generalizing n s t with
  | ind z ih =>
    have ht := hR.fst_take h
    unfold SqlScript.skipFrom
    simp only [ht, Token.isEnd_relocate, Token.kind_relocate]
    by_cases he : (TokenSource.take s).1.isEnd = true
    · rw [if_pos he, if_pos he]
      exact ⟨rfl, hR.take h⟩
    rw [if_neg he, if_neg he]
    split
    · exact ⟨rfl, hR.take h⟩
    · exact ih _ (hz ▸ size_take_lt s (by simpa using he)) _ (hR.take h) rfl

/-- An attempt comes to the same on both sources. -/
theorem attempt (hR : Simulation f R) {s : σ} {t : τ} (h : R s t) :
    (attempt t).1 = (attempt s).1.relocate f ∧ R (attempt s).2 (attempt t).2 := by
  have he := hR.statement h
  unfold SqlScript.attempt
  generalize Grammar.statement.run s = x at he
  generalize Grammar.statement.run t = y at he
  cases he with
  | ok h' => exact ⟨rfl, hR.note _ _ h'⟩
  | error h' hu hv =>
    obtain ⟨hn, hs⟩ := hR.skipFrom 0 h'
    refine ⟨?_, hR.note _ _ hs⟩
    rw [← hu, ← hv, hR.fst_peek h']
    simp only [Attempt.report, Attempt.relocate, SyntaxError.relocate, skip, hn]

/-- So do the attempts at a whole script. -/
theorem attempts (hR : Simulation f R) {s : σ} {t : τ} (h : R s t) :
    (attempts t).1 = (attempts s).1.map (Attempt.relocate f) ∧ R (attempts s).2 (attempts t).2 := by
  -- by induction on the size of the first source, which every attempt lowers
  induction hn : size s using Nat.strongRecOn generalizing s t with
  | ind n ih =>
    have hp := hR.fst_peek h
    cases hs : (TokenSource.peek s).1.isEnd with
    | true =>
      rw [attempts_of_isEnd hs, attempts_of_isEnd (by rw [hp, Token.isEnd_relocate, hs])]
      exact ⟨rfl, hR.peek h⟩
    | false =>
      rw [attempts_of_not_isEnd hs, attempts_of_not_isEnd (by rw [hp, Token.isEnd_relocate, hs])]
      obtain ⟨ha, h'⟩ := hR.attempt (hR.peek h)
      obtain ⟨has, h''⟩ := ih _ (hn ▸ size_attempt_peek_lt hs) h' rfl
      exact ⟨by rw [ha, has, List.map_cons], h''⟩

theorem parse (hR : Simulation f R) {s : σ} {t : τ} (h : R s t) :
    (parse t).1 = (parse s).1.relocate f := by
  simp only [SqlScript.parse, (hR.attempts h).1, Outcome.ofAttempts_map_relocate]

end Simulation

/-! ## Tapes with other positions -/

namespace Tape

/-- A look at a tape leaves it as it is. -/
theorem snd_peek (t : Tape) : (TokenSource.peek t).2 = t := by
  rcases t with ⟨_ | _, _⟩ <;> rfl

/-- The same tape, with its tokens elsewhere. -/
def relocate (f : Location → Location) (t : Tape) : Tape :=
  ⟨t.upcoming.map (Token.relocate f), f t.finish⟩

theorem simulation_relocate (f : Location → Location) :
    Simulation f (fun s t : Tape => t = s.relocate f) where
  fst_peek := by
    rintro ⟨_ | _, _⟩ _ rfl <;> rfl
  peek := by
    rintro ⟨_ | _, _⟩ _ rfl <;> rfl
  take := by
    rintro ⟨_ | _, _⟩ _ rfl <;> rfl
  note := by
    rintro _ _ _ _ rfl
    rfl

end Tape

end SqlScript
