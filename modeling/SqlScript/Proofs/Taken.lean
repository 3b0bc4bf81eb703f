import SqlScript.Proofs.Upcoming

/-!
# The tokens that are taken

`Took s q s'` follows the way from one state of a source to another by its single looks and takes.
A rule that fails has taken inner tokens of a statement only (`Begun`), and a statement that is
read has taken its semicolon behind them (`Finished`, `Grammar.statement_ends`). On a scanner, what
was ahead is what was taken, ends of input not counted, and what is still ahead
(`Took.remaining_eq`); on a tape, what was taken stood in front (`Took.eq_tape`).

What a rule leaves of a scanner does not tell how often the end of input was taken on the way:
behind it stands the end of input again. A `RecordedScanner` keeps the tokens that are taken from
it, that one included. It shows and hands out what the scanner alone does
(`RecordedScanner.simulation_scanner`), so rules, attempts and scripts come to the same on it.
-/

namespace SqlScript

open TokenSource

/-! ## The way from one state to another -/

section
variable {σ : Type} [TokenSource σ] {s s' s'' : σ} {q q' : List Token}

/-- From `s` the other state is reached by looking at tokens and taking the tokens `q`. -/
inductive Took (s : σ) : List Token → σ → Prop
  | refl : Took s [] s
  | peek {q : List Token} {s' : σ} (h : Took s q s') : Took s q (TokenSource.peek s').2
  | take {q : List Token} {s' : σ} (h : Took s q s') :
      Took s (q ++ [(TokenSource.take s').1]) (TokenSource.take s').2

theorem Took.trans (h : Took s q s') (h' : Took s' q' s'') : Took s (q ++ q') s'' := by
  induction h' with
  | refl => rwa [List.append_nil]
  | peek _ ih => exact ih.peek
  | take _ ih =>
    rw [← List.append_assoc]
    exact ih.take

/-- The other state is reached by taking inner tokens of a statement. -/
def Begun (s s' : σ) : Prop := ∃ q, (∀ t ∈ q, t.kind.isInner = true) ∧ Took s q s'

/-- The other state is reached by taking inner tokens of a statement and then a semicolon. -/
def Finished (s s' : σ) : Prop :=
  ∃ r, Begun s r ∧ (take r).1.kind = .mark .semicolon ∧ s' = (take r).2

theorem begun_self (s : σ) : Begun s s := ⟨[], by simp, .refl⟩

theorem kept_begun (s : σ) : Kept (Begun s) where
  peek := by
    rintro s' ⟨q, hq, h⟩
    exact ⟨q, hq, h.peek⟩
  take := by
    rintro s' ⟨q, hq, h⟩ hk
    rw [TokenSource.fst_peek] at hk
    exact ⟨_, List.forall_mem_append.2 ⟨hq, List.forall_mem_singleton.2 hk⟩, h.take⟩

theorem Begun.finished (h : Begun s s') (hk : (TokenSource.peek s').1.kind = .mark .semicolon) :
    Finished s (TokenSource.take s').2 :=
  ⟨s', h, TokenSource.fst_peek s' ▸ hk, rfl⟩

/-- A statement is read without reaching the end of input. -/
theorem Finished.exists_took (h : Finished s s') :
    ∃ q e, (∀ t ∈ q, t.kind.isInner = true) ∧ e.kind = .mark .semicolon ∧
      (∀ t ∈ q ++ [e], t.isEnd = false) ∧ Took s (q ++ [e]) s' := by
  obtain ⟨r, ⟨q, hq, h⟩, he, rfl⟩ := h
  refine ⟨q, _, hq, he, List.forall_mem_append.2 ⟨fun t ht => ?_, ?_⟩, h.take⟩
  · exact Token.isEnd_eq_false_of_isInner (hq t ht)
  · exact List.forall_mem_singleton.2 (by simp [Token.isEnd, he])

/-- **The tokens that a statement takes**: inner ones and a semicolon, or if it fails then inner
ones up to the token that the error names. -/
theorem Grammar.statement_ends (s : σ) :
    Rule.Ends (Begun s) (Finished s) (Grammar.statement.run s) :=
  (kept_begun s).statement_ends (fun h hk => h.finished hk) (begun_self s)

end

/-! ## On a tape -/

/-- What was taken of a tape stood in front of what is left. -/
theorem Took.eq_tape {s t : Tape} {q : List Token} (h : Took s q t)
    (hq : ∀ u ∈ q, u.isEnd = false) : s = ⟨q ++ t.upcoming, t.finish⟩ := by
  induction h with
  | refl => rfl
  | @peek q t _ ih =>
    rw [Tape.snd_peek]
    exact ih hq
  | @take q t _ ih =>
    obtain ⟨hq, ht⟩ := List.forall_mem_append.1 hq
    rw [ih hq]
    rcases t with ⟨_ | ⟨u, us⟩, l⟩
    · cases ht _ (List.mem_singleton_self _)
    · simp [TokenSource.take, Tape.take]

theorem Begun.exists_eq_tape {s t : Tape} (h : Begun s t) :
    ∃ q, (∀ u ∈ q, u.kind.isInner = true) ∧ s = ⟨q ++ t.upcoming, t.finish⟩ := by
  obtain ⟨q, hq, h⟩ := h
  exact ⟨q, hq, h.eq_tape fun u hu => Token.isEnd_eq_false_of_isInner (hq u hu)⟩

theorem Finished.exists_eq_tape {s t : Tape} (h : Finished s t) :
    ∃ q e, (∀ u ∈ q, u.kind.isInner = true) ∧ e.kind = .mark .semicolon ∧
      s = ⟨q ++ e :: t.upcoming, t.finish⟩ := by
  obtain ⟨q, e, hq, he, hend, h⟩ := h.exists_took
  exact ⟨q, e, hq, he, (h.eq_tape hend).trans (by rw [List.append_assoc]; rfl)⟩

/-! ## On a scanner -/

namespace Scanner

theorem pending_take (s : Scanner) : s.take.2.pending = none := by
  rcases s with ⟨_, _, _ | _, _⟩ <;> rfl

theorem head?_remaining (s : Scanner) : s.remaining.head? = some s.take.1 := by
  cases h : s.take.1.isEnd with
  | true => rw [remaining_of_isEnd h, List.head?_cons]
  | false => rw [remaining_of_not_isEnd h, List.head?_cons]

end Scanner

namespace Took

variable {s s' : Scanner} {q : List Token} {text : String}

theorem reachable (h : Took s q s') (hs : s.Reachable text) : s'.Reachable text := by
  induction h with
  | refl => exact hs
  | peek _ ih => exact ih.peek
  | take _ ih => exact ih.take

/-- Once the end of input has been taken, it is ahead for ever. -/
theorem take_eq_of_isEnd (h : Took s q s') (hs : s.Reachable text) {t : Token}
    (ht : t ∈ q) (hend : t.isEnd = true) : s'.take.1 = t := by
  induction h with
  | refl => cases ht
  | @peek q s' _ ih =>
    change s'.peek.2.take.1 = t
    rw [Scanner.take_peek, ih ht]
  | @take q s' h ih =>
    have hlast : s'.take.1 = t := by
      rcases List.mem_append.1 ht with ht | ht
      · exact ih ht
      · exact (List.mem_singleton.1 ht).symm
    have hagain := (h.reachable hs).coherent.take_take (hlast ▸ hend)
    exact hagain.1.trans hlast

/-- **What was ahead was taken or is still ahead**, the end of input staying where it is. -/
theorem remaining_eq (h : Took s q s') (hs : s.Reachable text) :
    s.remaining = q.filter (fun t => !t.isEnd) ++ s'.remaining := by
  induction h with
  | refl => rfl
  | @peek q s' _ ih => exact ih.trans (congrArg _ s'.remaining_peek.symm)
  | @take q s' h ih =>
    change _ = (q ++ [s'.take.1]).filter _ ++ s'.take.2.remaining
    rw [ih, List.filter_append, List.append_assoc]
    congr 1
    cases he : s'.take.1.isEnd with
    | true =>
      obtain ⟨hagain, -⟩ := (h.reachable hs).coherent.take_take he
      rw [Scanner.remaining_of_isEnd he, Scanner.remaining_of_isEnd (hagain ▸ he), hagain]
      simp [he]
    | false =>
      rw [Scanner.remaining_of_not_isEnd he]
      simp [he]

theorem remaining_eq_of_forall (h : Took s q s') (hs : s.Reachable text)
    (hq : ∀ t ∈ q, t.isEnd = false) : s.remaining = q ++ s'.remaining := by
  rw [h.remaining_eq hs, List.filter_eq_self.2 fun t ht => by rw [hq t ht]; rfl]

end Took

/-! ## Scanning with a record -/

/-- A scanner with the tokens that have been taken from it, in order. -/
structure RecordedScanner where
  scanner : Scanner
  taken : List Token

namespace RecordedScanner

/-- A scanner from which nothing has been taken yet. -/
def ofScanner (s : Scanner) : RecordedScanner := ⟨s, []⟩

/-- The next token, left in place. -/
def peek (r : RecordedScanner) : Token × RecordedScanner :=
  let x := r.scanner.peek
  (x.1, { r with scanner := x.2 })

/-- The next token, taken. -/
def take (r : RecordedScanner) : Token × RecordedScanner :=
  let x := r.scanner.take
  (x.1, ⟨x.2, r.taken ++ [x.1]⟩)

theorem take_peek (r : RecordedScanner) : r.peek.2.take = r.take := by
  simp only [take, peek, Scanner.take_peek]

instance : TokenSource RecordedScanner where
  peek := peek
  take := take
  note _ r := r
  size r := r.scanner.size
  fst_peek r := r.scanner.fst_peek
  take_peek := take_peek
  size_peek_le r := r.scanner.size_peek_le
  size_take_le r := r.scanner.size_take_le
  size_take_lt _ h := Scanner.size_take_lt h
  size_note_le _ _ := Nat.le_refl _

/-- The record changes nothing about reading. -/
theorem simulation_scanner :
    Simulation id (fun (s : Scanner) (r : RecordedScanner) => r.scanner = s) where
  fst_peek := by
    rintro _ r rfl
    rfl
  peek := by
    rintro _ r rfl
    rfl
  take := by
    rintro _ r rfl
    rfl
  note := by
    rintro _ r _ _ rfl
    rfl

/-! ## What a record tells -/

section
variable {r r' : RecordedScanner} {q : List Token}

theorem scanner_of_took (h : Took r q r') : Took r.scanner q r'.scanner := by
  induction h with
  | refl => exact .refl
  | peek _ ih => exact ih.peek
  | take _ ih => exact ih.take

theorem taken_of_took (h : Took r q r') : r'.taken = r.taken ++ q := by
  induction h with
  | refl => exact (List.append_nil _).symm
  | peek _ ih => exact ih
  | @take q r' _ ih => exact (congrArg (· ++ [r'.take.1]) ih).trans (List.append_assoc ..)

/-- From the start of a record, its list is what has been taken. -/
theorem eq_mk_of_took {s : Scanner} (h : Took (ofScanner s) q r) : r = ⟨r.scanner, q⟩ := by
  obtain ⟨scanner, taken⟩ := r
  have htaken : taken = [] ++ q := taken_of_took h
  rw [htaken, List.nil_append]

end

end RecordedScanner

end SqlScript
