import SqlScript.Proofs.Cursor
import SqlScript.Proofs.Cutting
import SqlScript.Proofs.Refusal

/-!
# Reading makes progress

A scan gives the end of input where nothing but blanks is left, and otherwise uses up some of the
text. So a text has no more tokens than characters that are not blank, the end of input apart
(`length_tokens_le`).

Every loop over tokens ends: `loopWithin` runs a loop for so many rounds at most, and none needs
more rounds than there are tokens ahead (`Scanner.ReadsAs.skip_ends`, `collect_ends`,
`attempts_ends`).

Each attempt at a statement takes a token other than the end of input. The attempts at a script
take every such token once, and the end of input at most once; that is seen on a recorded scanner
(`RecordedScanner.attempt_used`, `RecordedScanner.attempts_used`). The main result is
`reading_makes_progress`.
-/

namespace SqlScript

open TokenSource

/-! ## Scans -/

theorem Location.offset_le_after (l : Location) (w : List Char) : l.offset ≤ (l.after w).offset :=
  (l.offset_after w).symm ▸ Nat.le_add_right ..

theorem Location.offset_lt_after (l : Location) {w : List Char} (h : w ≠ []) :
    l.offset < (l.after w).offset := by
  obtain ⟨c, w, rfl⟩ := List.exists_cons_of_ne_nil h
  have hc := c.utf8Size_pos
  rw [offset_after, String.ofList_cons, String.utf8ByteSize_append, String.utf8ByteSize_singleton]
  omega

/-- What a scan uses up, which is something unless it gives the end of input. -/
theorem exists_eq_append_scan (l : Location) (cs : List Char) :
    ∃ w, cs = w ++ (scan l cs).rest ∧ (scan l cs).location = l.after w ∧
      ((scan l cs).token.isEnd = false → w ≠ []) := by
  have hsplit := List.takeWhile_append_dropWhile (p := isBlank) (l := cs)
  unfold scan
  split
  · next hd =>
    rw [hd] at hsplit
    exact ⟨cs.takeWhile isBlank, hsplit.symm, rfl, fun h => by cases h⟩
  · next c r hd =>
    rw [hd, ← Lexeme.first_append c r, ← List.append_assoc] at hsplit
    exact ⟨_, hsplit.symm, (l.after_append _ _).symm, fun _ => by
      simp [Lexeme.first_chars_ne_nil]⟩

/-- **A text has no more tokens than characters that are not blank**, and the end of input. -/
theorem length_tokens_le (l : Location) (cs : List Char) :
    (tokens l cs).length ≤ cs.countP (fun c => !isBlank c) + 1 := by
  induction cs using lexeme_induction generalizing l with
  | blank gap h =>
    rw [tokens_of_isBlank h]
    exact Nat.le_add_left 1 _
  | lexeme gap c r hgap hc ih =>
    obtain ⟨w, hw⟩ := exists_chars_first_eq_cons c r
    have hcut := Lexeme.first_append c r
    rw [hw] at hcut
    have htokens := ih ((l.after gap).after (Lexeme.first c r).chars)
    rw [tokens_append_of_isBlank hgap, tokens_cons_of_not_isBlank hc, List.length_cons, ← hcut,
      List.countP_append, List.countP_append, List.countP_cons, hc]
    simp only [Bool.not_false, if_true]
    omega

namespace Scanner

theorem exists_eq_append_take (s : Scanner) :
    ∃ w, s.rest = w ++ s.take.2.rest ∧ s.take.2.location = s.location.after w := by
  rcases s with ⟨rest, l, _ | t, e⟩
  · obtain ⟨w, hrest, hl, -⟩ := exists_eq_append_scan l rest
    exact ⟨w, hrest, hl⟩
  · exact ⟨[], rfl, rfl⟩

/-- A look leaves the same text unscanned as taking the token does, or changes nothing. -/
theorem rest_peek (s : Scanner) : s.peek.2 = s ∨
    s.peek.2.rest = s.take.2.rest ∧ s.peek.2.location = s.take.2.location := by
  rcases s with ⟨rest, l, _ | t, e⟩
  · exact .inr ⟨rfl, rfl⟩
  · exact .inl rfl

/-- The scanner has left to scan what is behind some front part of the text, and stands where that
part ends. -/
def StandsIn (s : Scanner) (text : String) : Prop :=
  ∃ front, text.toList = front ++ s.rest ∧ s.location = Location.start.after front

theorem StandsIn.take {text : String} {s : Scanner} (h : s.StandsIn text) :
    s.take.2.StandsIn text := by
  obtain ⟨front, htext, hl⟩ := h
  obtain ⟨w, hrest, hl'⟩ := s.exists_eq_append_take
  refine ⟨front ++ w, ?_, ?_⟩
  · rw [htext, hrest, List.append_assoc]
  · rw [hl', hl, Location.after_append]

theorem Reachable.standsIn {text : String} {s : Scanner} (h : s.Reachable text) :
    s.StandsIn text := by
  induction h with
  | start => exact ⟨[], rfl, rfl⟩
  | take _ ih => exact ih.take
  | @peek s _ ih =>
    rcases s.rest_peek with hs | ⟨hrest, hl⟩
    · rwa [hs]
    · rw [StandsIn, hrest, hl]
      exact ih.take
  | @next s _ ih =>
    unfold next?
    split
    · exact ih
    · exact ih.take

theorem ReadsAs.length_remaining {s : Scanner} {t : Tape} (h : s.ReadsAs t) :
    s.remaining.length = t.upcoming.length + 1 := by
  rw [h.remaining_eq, List.length_append, List.length_singleton]

theorem Reachable.length_remaining_le {text : String} {s : Scanner} (h : s.Reachable text) :
    s.remaining.length ≤ text.toList.countP (fun c => !isBlank c) + 1 := by
  have ht := readsAs_tapeOf text
  obtain ⟨c, hc⟩ := h.exists_standsAt ht
  have hle : s.remaining.length ≤ (ofString text).remaining.length := by
    rw [hc.readsAs.length_remaining, ht.length_remaining]
    exact Nat.add_le_add_right (List.drop_sublist ..).length_le 1
  rw [remaining_of_pending_none (s := ofString text) rfl] at hle
  exact hle.trans (length_tokens_le _ _)

end Scanner

/-! ## Rounds -/

/-- The result of a loop if it ends within so many rounds. A round goes on with another state or
ends the loop with a result. -/
def loopWithin {τ ρ : Type} (round : τ → τ ⊕ ρ) : Nat → τ → Option ρ
  | 0, _ => none
  | n + 1, x =>
    match round x with
    | .inl y => loopWithin round n y
    | .inr r => some r

section
variable {σ : Type} [TokenSource σ] {α : Type}

/-- One round of skipping, with the number of tokens skipped so far. -/
def skipRound (x : Nat × σ) : (Nat × σ) ⊕ (Nat × σ) :=
  let r := take x.2
  if r.1.isEnd then .inr (x.1, r.2)
  else if r.1.kind = .mark .semicolon then .inr (x.1 + 1, r.2)
  else .inl (x.1 + 1, r.2)

/-- One round of a repetition, with the values so far. -/
def collectRound (step : Rule σ (Option α)) (x : Array α × σ) :
    (Array α × σ) ⊕ (Except SyntaxError (List α) × σ) :=
  match step.run x.2 with
  | (.error e, s) => .inr (.error e, s)
  | (.ok none, s) => .inr (.ok x.1.toList, s)
  | (.ok (some a), s) => .inl (x.1.push a, s)

/-- One round of the attempts at a script, with the attempts so far. -/
def attemptsRound (x : Array Attempt × σ) : (Array Attempt × σ) ⊕ (Array Attempt × σ) :=
  let r := peek x.2
  if r.1.isEnd then .inr (x.1, r.2)
  else
    let a := attempt r.2
    .inl (x.1.push a.1, a.2)

theorem skipFrom_eq_round (x : Nat × σ) :
    skipFrom x.1 x.2 = (skipRound x).elim (fun y => skipFrom y.1 y.2) id := by
  rw [skipFrom, skipRound]
  split
  · rfl
  · split <;> rfl

theorem collectOnto_eq_round (step : Rule σ (Option α)) (h : step.Advances) (x : Array α × σ) :
    Rule.collectOnto step h x.1 x.2 =
      (collectRound step x).elim (fun y => Rule.collectOnto step h y.1 y.2) id := by
  rw [Rule.collectOnto, collectRound]
  split <;> next hs => rw [hs]; rfl

theorem attemptsOnto_eq_round (x : Array Attempt × σ) :
    attemptsOnto x.1 x.2 = (attemptsRound x).elim (fun y => attemptsOnto y.1 y.2) id := by
  rw [attemptsOnto, attemptsRound]
  dsimp only
  split <;> rfl

end

/-- The repetitions of the grammar, with the type of what they collect. -/
inductive ListLoop : Type → Type
  /-- More names behind commas. -/
  | names : ListLoop String
  /-- More declarations of columns behind commas. -/
  | columns : ListLoop Column
  /-- More literals behind commas. -/
  | values : ListLoop Value
  /-- More columns to select. -/
  | selected : ListLoop String

namespace ListLoop

variable {σ τ : Type} [TokenSource σ] [TokenSource τ] {α : Type}

/-- What the repetition does again and again, for any source of tokens. -/
def step : ListLoop α → Rule σ (Option α)
  | names => Grammar.nextItem Grammar.name
  | columns => Grammar.nextItem Grammar.column
  | values => Grammar.nextItem Grammar.value
  | selected => Grammar.nextSelected

theorem step_advances (x : ListLoop α) : (x.step (σ := σ)).Advances := by
  cases x with
  | names => exact Grammar.nextItem_advances _
  | columns => exact Grammar.nextItem_advances _
  | values => exact Grammar.nextItem_advances _
  | selected => exact Grammar.nextSelected_advances

theorem coupled {R : σ → τ → Prop} (hR : Coupling R) (x : ListLoop α) :
    Rule.Coupled R R (x.step (σ := σ)) (x.step (σ := τ)) := by
  cases x with
  | names => exact Grammar.nextItem_coupled hR (Grammar.name_coupled hR)
  | columns => exact Grammar.nextItem_coupled hR (Grammar.column_coupled hR)
  | values => exact Grammar.nextItem_coupled hR (Grammar.value_coupled hR)
  | selected => exact Grammar.nextSelected_coupled hR

end ListLoop

/-- A loop ends within `k` rounds if it starts with fewer than `k` tokens ahead and each round that
goes on leaves fewer of them. -/
theorem loopWithin_eq_some {β ρ : Type} {round : β × Scanner → (β × Scanner) ⊕ ρ}
    (loop : β × Scanner → ρ) (hloop : ∀ x, loop x = (round x).elim loop id)
    (hround : ∀ x y t, x.2.ReadsAs t → round x = .inl y →
      ∃ t', y.2.ReadsAs t' ∧ TokenSource.size t' < TokenSource.size t)
    {k : Nat} {x : β × Scanner} {t : Tape} (hx : x.2.ReadsAs t) (hk : TokenSource.size t < k) :
    loopWithin round k x = some (loop x) := by
  induction k generalizing x t with
  | zero => omega
  | succ k ih =>
    rw [loopWithin, hloop]
    cases hy : round x with
    | inl y =>
      obtain ⟨t', hy', hlt⟩ := hround x y t hx hy
      exact ih hy' (by omega)
    | inr r => rfl

namespace Scanner

variable {s : Scanner} {t : Tape}

theorem ReadsAs.isEnd_take_eq_false (h : s.ReadsAs t)
    (he : ¬ (TokenSource.take s).1.isEnd = true) : (TokenSource.take t).1.isEnd = false :=
  h.fst_take ▸ Bool.eq_false_iff.2 he

theorem ReadsAs.skip_ends (h : s.ReadsAs t) {k : Nat} (hk : TokenSource.size t < k) :
    loopWithin skipRound k (0, s) = some (skip s) := by
  refine loopWithin_eq_some (fun x => skipFrom x.1 x.2) skipFrom_eq_round ?_ h hk
  intro x y t hx hy
  simp only [skipRound] at hy
  split at hy
  · cases hy
  · next he =>
    split at hy
    · cases hy
    · obtain rfl := Sum.inl.inj hy
      exact ⟨_, hx.take, TokenSource.size_take_lt t (hx.isEnd_take_eq_false he)⟩

theorem ReadsAs.collect_ends (h : s.ReadsAs t) {k : Nat} (hk : TokenSource.size t < k) {α : Type}
    (x : ListLoop α) : loopWithin (collectRound x.step) k (#[], s) =
      some ((Rule.collect x.step x.step_advances).run s) := by
  refine loopWithin_eq_some (fun y => Rule.collectOnto x.step x.step_advances y.1 y.2)
    (collectOnto_eq_round _ _) ?_ h hk
  intro y z t hy hz
  have hstep := x.coupled simulation_readsAs.coupling hy
  simp only [collectRound] at hz
  split at hz
  · cases hz
  · cases hz
  · next a s' hs =>
    obtain rfl := Sum.inl.inj hz
    rw [hs] at hstep
    generalize ht : x.step.run t = w at hstep
    cases hstep with
    | ok h' => exact ⟨_, h', x.step_advances t _ _ ht rfl⟩

theorem ReadsAs.attempts_ends (h : s.ReadsAs t) {k : Nat} (hk : TokenSource.size t < k) :
    loopWithin attemptsRound k (#[], s) = some (attemptsOnto #[] s) := by
  refine loopWithin_eq_some (fun x => attemptsOnto x.1 x.2) attemptsOnto_eq_round ?_ h hk
  intro x y t hx hy
  simp only [attemptsRound] at hy
  split at hy
  · cases hy
  · next he =>
    obtain rfl := Sum.inl.inj hy
    rw [TokenSource.fst_peek] at he
    exact ⟨_, hx.attempt.2, size_attempt_lt (hx.isEnd_take_eq_false he)⟩

end Scanner

/-! ## What attempts take -/

section
variable {σ : Type} [TokenSource σ] {s s' s'' : σ} {q q' : List Token}

/-- From `s` the other state is reached by taking the tokens `q`, and then perhaps the end of
input. -/
def Used (s : σ) (q : List Token) (s' : σ) : Prop :=
  ∃ e : Option Token, (∀ t ∈ e, t.isEnd = true) ∧ Took s (q ++ e.toList) s'

theorem Took.used (h : Took s q s') : Used s q s' := ⟨none, by simp, by simpa using h⟩

theorem Took.used_append (h : Took s q s') (h' : Used s' q' s'') : Used s (q ++ q') s'' := by
  obtain ⟨e, he, h'⟩ := h'
  exact ⟨e, he, (List.append_assoc ..).symm ▸ h.trans h'⟩

/-- Skipping takes each token once, and one at least unless the end of input is next. -/
theorem skipFrom_used (n : Nat) (s : σ) :
    ∃ q, (∀ t ∈ q, t.isEnd = false) ∧ Used s q (skipFrom n s).2 ∧
      ((take s).1.isEnd = false → q ≠ []) := by
  fun_induction skipFrom n s with
  | case1 n s r h =>
    refine ⟨[], by simp, ⟨some (take s).1, ?_, Took.refl.take⟩, fun h' => ?_⟩
    · rintro t ⟨⟩
      exact h
    · exact absurd (h.symm.trans h') (by decide)
  | case2 n s r h hk =>
    exact ⟨[(take s).1], List.forall_mem_singleton.2 (Bool.eq_false_iff.2 h), Took.refl.take.used,
      by simp⟩
  | case3 n s r h hk ih =>
    obtain ⟨q, hq, hused, -⟩ := ih
    exact ⟨(take s).1 :: q, List.forall_mem_cons.2 ⟨Bool.eq_false_iff.2 h, hq⟩,
      Took.refl.take.used_append hused, by simp⟩

end

theorem Used.reachable {s s' : Scanner} {q : List Token} {text : String} (h : Used s q s')
    (hs : s.Reachable text) : s'.Reachable text := by
  obtain ⟨e, -, h⟩ := h
  exact h.reachable hs

theorem Used.remaining_eq {s s' : Scanner} {q : List Token} {text : String} (h : Used s q s')
    (hs : s.Reachable text) (hq : ∀ t ∈ q, t.isEnd = false) :
    s.remaining = q ++ s'.remaining := by
  obtain ⟨e, he, h⟩ := h
  have hfilter : (q ++ e.toList).filter (fun t => !t.isEnd) = q := by
    rw [List.filter_append, List.filter_eq_self.2 fun t ht => by rw [hq t ht]; rfl,
      List.filter_eq_nil_iff.2 fun t ht => by rw [he t (Option.mem_toList.1 ht)]; decide,
      List.append_nil]
  rw [h.remaining_eq hs, hfilter]

namespace RecordedScanner

variable {r r' : RecordedScanner} {q : List Token} {text : String}

theorem scanner_of_used (h : Used r q r') : Used r.scanner q r'.scanner := by
  obtain ⟨e, he, h⟩ := h
  exact ⟨e, he, scanner_of_took h⟩

/-- **An attempt takes a token other than the end of input**, also if it fails at the end of input
and skips nothing. -/
theorem attempt_used (hr : r.scanner.Reachable text) (h : r.scanner.take.1.isEnd = false) :
    ∃ q, q ≠ [] ∧ (∀ t ∈ q, t.isEnd = false) ∧ Used r q (attempt r).2 := by
  have hends := Grammar.statement_ends r
  unfold attempt
  generalize Grammar.statement.run r = x at hends
  cases hends with
  | ok hfinished =>
    obtain ⟨q, t, -, -, hend, htook⟩ := hfinished.exists_took
    exact ⟨q ++ [t], by simp, hend, htook.used⟩
  | @error e r' hbegun =>
    obtain ⟨q, hq, htook⟩ := hbegun
    obtain ⟨q', hq', hused, hne⟩ := skipFrom_used 0 r'
    have hend : ∀ t ∈ q, t.isEnd = false := fun t ht => Token.isEnd_eq_false_of_isInner (hq t ht)
    refine ⟨q ++ q', fun hnil => ?_, List.forall_mem_append.2 ⟨hend, hq'⟩,
      htook.used_append hused⟩
    obtain ⟨rfl, rfl⟩ := List.append_eq_nil_iff.1 hnil
    -- nothing was taken, so the next token is still the one that is not the end of input
    have hhead := congrArg List.head? ((scanner_of_took htook).remaining_eq_of_forall hr hend)
    rw [List.nil_append, Scanner.head?_remaining, Scanner.head?_remaining] at hhead
    rw [Option.some.inj hhead] at h
    exact hne h rfl

/-- **The attempts at a script take every token**, and the end of input at most once. -/
theorem attempts_used (hr : r.scanner.Reachable text) :
    ∃ q, (∀ t ∈ q, t.isEnd = false) ∧ Used r q (attempts r).2 ∧
      (attempts r).2.scanner.take.1.isEnd = true := by
  -- by induction on the size of the scanner, which every attempt lowers
  induction hn : size r using Nat.strongRecOn generalizing r with
  | ind n ih =>
    have hpeek : (TokenSource.peek r).1 = r.scanner.take.1 := r.scanner.fst_peek
    have hpeeked : Took r [] (TokenSource.peek r).2 := Took.refl.peek
    have hr' := (scanner_of_took hpeeked).reachable hr
    have hnext : (TokenSource.peek r).2.scanner.take = r.scanner.take := r.scanner.take_peek
    cases he : (TokenSource.peek r).1.isEnd with
    | true =>
      rw [attempts_of_isEnd he]
      exact ⟨[], by simp, hpeeked.used, by rw [hnext, ← hpeek, he]⟩
    | false =>
      rw [attempts_of_not_isEnd he]
      obtain ⟨q, -, hq, hused⟩ := attempt_used hr' (by rw [hnext, ← hpeek, he])
      obtain ⟨q', hq', hused', hend⟩ :=
        ih _ (hn ▸ size_attempt_peek_lt he) ((scanner_of_used hused).reachable hr') rfl
      obtain ⟨_ | t, ht, htook⟩ := hused
      · rw [Option.toList_none, List.append_nil] at htook
        exact ⟨q ++ q', List.forall_mem_append.2 ⟨hq, hq'⟩,
          hpeeked.used_append (htook.used_append hused'), hend⟩
      · -- the end of input was taken, so no attempt follows
        have htake := (scanner_of_took htook).take_eq_of_isEnd hr' (by simp) (ht t rfl)
        have hlast : (TokenSource.peek (attempt (TokenSource.peek r).2).2).1.isEnd = true := by
          change (attempt (TokenSource.peek r).2).2.scanner.peek.1.isEnd = true
          rw [Scanner.fst_peek, htake, ht t rfl]
        refine ⟨q, hq, ?_, hend⟩
        rw [attempts_of_isEnd hlast]
        exact hpeeked.used_append ⟨some t, ht, htook.peek⟩

end RecordedScanner

/-! ## Everything together -/

open RecordedScanner

/-- On a record, an attempt in front of a token comes to the same and takes some tokens. -/
theorem Scanner.Reachable.attempt_ofScanner {text : String} {s : Scanner} (h : s.Reachable text)
    (he : s.peek.1.isEnd = false) :
    ∃ (q : List Token) (e : Option Token),
      attempt (ofScanner s.peek.2) = ((attempt s.peek.2).1, ⟨(attempt s.peek.2).2, q ++ e.toList⟩) ∧
      s.remaining = q ++ (attempt s.peek.2).2.remaining ∧ q ≠ [] ∧
      (∀ t ∈ q, t.isEnd = false) ∧ ∀ t ∈ e, t.isEnd = true := by
  have hnext : s.peek.2.take.1.isEnd = false := by rw [Scanner.take_peek, ← Scanner.fst_peek, he]
  obtain ⟨q, hne, hq, hused⟩ := attempt_used (r := ofScanner s.peek.2) h.peek hnext
  have hremaining := (scanner_of_used hused).remaining_eq h.peek hq
  obtain ⟨hsame, hscanner⟩ :=
    simulation_scanner.attempt (s := s.peek.2) (t := ofScanner s.peek.2) rfl
  rw [Attempt.relocate_id, id_eq] at hsame
  obtain ⟨e, hend, htook⟩ := hused
  refine ⟨q, e, ?_, ?_, hne, hq, hend⟩
  · rw [← hscanner]
    exact Prod.ext hsame (eq_mk_of_took htook)
  · rw [← s.remaining_peek, ← hscanner]
    exact hremaining

/-- On a record, reading a script comes to the same and takes every token once, and perhaps the end
of input. -/
theorem Scanner.Reachable.parse_ofScanner {text : String} {s : Scanner} (h : s.Reachable text) :
    ∃ (ts : List Token) (eof : Token) (e : Option Token),
      parse (ofScanner s) = ((parse s).1, ⟨(parse s).2, ts ++ e.toList⟩) ∧
      s.remaining = ts ++ [eof] ∧ (∀ t ∈ ts, t.isEnd = false) ∧ eof.isEnd = true ∧
      ∀ t ∈ e, t = eof := by
  obtain ⟨ts, hts, hused, hend⟩ := attempts_used (r := ofScanner s) h
  have hremaining := (scanner_of_used hused).remaining_eq h hts
  have hscanner := (simulation_scanner.attempts (s := s) (t := ofScanner s) rfl).2
  have hsame := simulation_scanner.parse (s := s) (t := ofScanner s) rfl
  rw [Outcome.relocate_id] at hsame
  rw [Scanner.remaining_of_isEnd hend] at hremaining
  obtain ⟨e, hisEnd, htook⟩ := hused
  refine ⟨ts, _, e, ?_, hremaining, hts, hend, fun t ht => ?_⟩
  · refine Prod.ext hsame ?_
    change (attempts (ofScanner s)).2 = ⟨(attempts s).2, ts ++ e.toList⟩
    rw [← hscanner]
    exact eq_mk_of_took htook
  · have hmem := List.mem_append_right ts (Option.mem_toList.2 ht)
    exact ((scanner_of_took htook).take_eq_of_isEnd h hmem (hisEnd t ht)).symm

/-- **Reading makes progress.** Let `s` be any scanner that is reached on a text.

A scan gives the end of input if nothing but blanks is left, and otherwise comes to a place further
on, within the text. So draining gives no more tokens than the text has characters that are not
blank, and the end of input. In front of a token an attempt at a statement takes some tokens, and
at most the end of input behind them. Skipping, every repetition of the grammar and the attempts at
a script end within as many rounds as there are tokens ahead, the end of input counted; and reading
a script takes each of these tokens once, the end of input at most. -/
theorem reading_makes_progress {text : String} {s : Scanner} (h : s.Reachable text) :
    ((scan s.location s.rest).token.isEnd = true ↔ ∀ c ∈ s.rest, isBlank c = true) ∧
    ((scan s.location s.rest).token.isEnd = false →
      s.location.offset < (scan s.location s.rest).location.offset) ∧
    (scan s.location s.rest).location.offset ≤ text.utf8ByteSize ∧
    s.drain.1.length ≤ text.toList.countP (fun c => !isBlank c) + 1 ∧
    (s.peek.1.isEnd = false → ∃ (q : List Token) (e : Option Token),
      attempt (ofScanner s.peek.2) = ((attempt s.peek.2).1, ⟨(attempt s.peek.2).2, q ++ e.toList⟩) ∧
      s.remaining = q ++ (attempt s.peek.2).2.remaining ∧ q ≠ [] ∧
      (∀ t ∈ q, t.isEnd = false) ∧ ∀ t ∈ e, t.isEnd = true) ∧
    loopWithin skipRound s.remaining.length (0, s) = some (skip s) ∧
    (∀ {α : Type} (x : ListLoop α), loopWithin (collectRound x.step) s.remaining.length (#[], s) =
      some ((Rule.collect x.step x.step_advances).run s)) ∧
    loopWithin attemptsRound s.remaining.length (#[], s) = some (attemptsOnto #[] s) ∧
    ∃ (ts : List Token) (eof : Token) (e : Option Token),
      parse (ofScanner s) = ((parse s).1, ⟨(parse s).2, ts ++ e.toList⟩) ∧
      s.remaining = ts ++ [eof] ∧ (∀ t ∈ ts, t.isEnd = false) ∧ eof.isEnd = true ∧
      ∀ t ∈ e, t = eof := by
  obtain ⟨t, ht⟩ := h.exists_readsAs
  have hrounds : TokenSource.size t < s.remaining.length := ht.length_remaining ▸ Nat.lt_succ_self _
  obtain ⟨w, hrest, hlocation, hne⟩ := exists_eq_append_scan s.location s.rest
  refine ⟨?_, fun he => ?_, ?_, h.length_remaining_le, h.attempt_ofScanner, ht.skip_ends hrounds,
    ht.collect_ends hrounds, ht.attempts_ends hrounds, h.parse_ofScanner⟩
  · rw [isEnd_scan_iff, List.dropWhile_eq_nil_iff]
  · rw [hlocation]
    exact s.location.offset_lt_after (hne he)
  · obtain ⟨front, htext, hs⟩ := h.standsIn
    rw [hlocation, hs, ← Location.offset_after_start, htext, hrest, ← List.append_assoc,
      Location.after_append, Location.after_append]
    exact Location.offset_le_after _ _

/-- `DROP TABLE t` has no semicolon, so the attempt at it fails at the end of input and skips
nothing. It has taken some tokens all the same. -/
theorem reading_makes_progress_drop :
    (scan .start "DROP TABLE t".toList).token.isEnd = false ∧
    Location.start.offset < (scan .start "DROP TABLE t".toList).location.offset ∧
    (Scanner.ofString "DROP TABLE t").drain.1.length ≤ 10 + 1 ∧
    (Scanner.ofString "DROP TABLE t").peek.1.isEnd = false ∧
    (attempt (Scanner.ofString "DROP TABLE t").peek.2).1 =
      .recovered ⟨.kind (.mark .semicolon), .endOfInput ⟨12, 1, 13⟩⟩ 0 ∧
    (∃ q ≠ [], (∀ t ∈ q, t.isEnd = false) ∧ (Scanner.ofString "DROP TABLE t").remaining =
      q ++ (attempt (Scanner.ofString "DROP TABLE t").peek.2).2.remaining) ∧
    loopWithin attemptsRound (Scanner.ofString "DROP TABLE t").remaining.length
      (#[], Scanner.ofString "DROP TABLE t") =
      some (attemptsOnto #[] (Scanner.ofString "DROP TABLE t")) ∧
    ∃ (ts : List Token) (eof : Token) (e : Option Token),
      (parse (ofScanner (Scanner.ofString "DROP TABLE t"))).2.taken = ts ++ e.toList ∧
      (Scanner.ofString "DROP TABLE t").remaining = ts ++ [eof] ∧ ∀ t ∈ e, t = eof := by
  have hscan : (scan .start "DROP TABLE t".toList).token.isEnd = false := by rfl
  have hpeek : (Scanner.ofString "DROP TABLE t").peek.1.isEnd = false := by rfl
  have hfail : Grammar.statement.run (Scanner.ofString "DROP TABLE t").peek.2 =
      (.error ⟨.kind (.mark .semicolon), .endOfInput ⟨12, 1, 13⟩⟩,
        (Grammar.statement.run (Scanner.ofString "DROP TABLE t").peek.2).2) := Prod.ext (by rfl) rfl
  have hskip : (skip (Grammar.statement.run (Scanner.ofString "DROP TABLE t").peek.2).2).1 = 0 := by
    rw [skip, skipFrom, if_pos (by rfl)]
  have hrecovered : (attempt (Scanner.ofString "DROP TABLE t").peek.2).1 =
      .recovered ⟨.kind (.mark .semicolon), .endOfInput ⟨12, 1, 13⟩⟩ 0 := by
    rw [attempt, hfail]
    exact congrArg (Attempt.recovered _) hskip
  obtain ⟨-, hoffset, -, hdrain, hattempt, -, -, hattempts, ts, eof, e, hparse, hts, -, -, he⟩ :=
    reading_makes_progress (s := .ofString "DROP TABLE t") .start
  obtain ⟨q, -, -, hq, hne, hend, -⟩ := hattempt hpeek
  exact ⟨hscan, hoffset hscan, hdrain, hpeek, hrecovered, ⟨q, hne, hend, hq⟩, hattempts, ts, eof, e,
    congrArg (fun x => x.2.taken) hparse, hts, he⟩

end SqlScript
