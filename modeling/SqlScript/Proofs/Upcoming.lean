import SqlScript.Proofs.Simulation

/-!
# What a scanner has ahead

`Scanner.remaining` lists the tokens that draining a scanner would give: the tokens ahead, and
the end of input behind them. A scanner that is reached from the start of a text
(`Scanner.Reachable`) is coherent: once it has come to the end of its text it stays there. So it
shows at every moment what the tape of its remaining tokens shows (`Scanner.ReadsAs`), and reading
a statement or a script from it is reading that tape (`Scanner.simulation_readsAs`), whether or
not a token is pending.
-/

namespace SqlScript

open TokenSource

/-! ## The kind of a lexeme -/

namespace Lexeme

theorem kind_number (sign cs : List Char) : ∃ d, (number sign cs).kind = .literal d := by
  unfold number
  split <;> exact ⟨_, rfl⟩

theorem kind_word_ne_endOfInput (cs : List Char) : (word cs).kind ≠ .endOfInput := by
  simp only [word, wordKind]
  split <;> exact fun h => by cases h

/-- No lexeme is the end of the text. -/
theorem kind_first_ne_endOfInput (c : Char) (cs : List Char) : (first c cs).kind ≠ .endOfInput := by
  have hn : ∀ sign ds, (number sign ds).kind ≠ .endOfInput := fun sign ds h => by
    obtain ⟨d, hd⟩ := kind_number sign ds
    rw [hd] at h
    cases h
  unfold first
  split
  · exact fun h => by cases h
  · split
    · exact kind_word_ne_endOfInput _
    split
    · exact hn _ _
    split
    · unfold signed
      split
      · exact fun h => by cases h
      · split
        · exact hn _ _
        · exact fun h => by cases h
    split
    · unfold quoted
      dsimp only
      split <;> exact fun h => by cases h
    · unfold operator
      split <;> exact fun h => by cases h

end Lexeme

theorem isEnd_scan_iff (l : Location) (cs : List Char) :
    (scan l cs).token.isEnd = true ↔ cs.dropWhile isBlank = [] := by
  unfold scan
  split
  · next h => simp [h, Token.endOfInput, Token.isEnd]
  · next c r h => simp [h, Token.isEnd, Lexeme.kind_first_ne_endOfInput]

/-- At the end of the text a scan uses up everything, and another one gives the same token. -/
theorem scan_of_isEnd {l : Location} {cs : List Char} (h : (scan l cs).token.isEnd = true) :
    scan l cs = ⟨.endOfInput (scan l cs).location, (scan l cs).location, []⟩ := by
  have hd := (isEnd_scan_iff l cs).1 h
  unfold scan
  split
  · rfl
  · next c r hc => rw [hd] at hc; cases hc

namespace Scanner

/-! ## Draining -/

/-- The tokens that draining the scanner gives: those ahead, and the end of input. -/
def remaining (s : Scanner) : List Token := s.drain.1

theorem drainOnto_eq (acc : Array Token) (s : Scanner) :
    s.drainOnto acc = (acc ++ (s.drainOnto #[]).1, (s.drainOnto #[]).2) := by
  suffices ∀ acc' : Array Token, s.drainOnto (acc ++ acc') =
      (acc ++ (s.drainOnto acc').1, (s.drainOnto acc').2) by
    rw [← this, Array.append_empty]
  intro acc'
  fun_induction drainOnto acc' s with
  | case1 acc' s r h =>
    rw [drainOnto, if_pos h]
    simp [r]
  | case2 acc' s r h ih =>
    rw [drainOnto, if_neg h]
    simpa using ih

theorem remaining_of_isEnd {s : Scanner} (h : s.take.1.isEnd = true) :
    s.remaining = [s.take.1] := by
  simp only [remaining, drain]
  rw [drainOnto, if_pos h]
  rfl

theorem remaining_of_not_isEnd {s : Scanner} (h : s.take.1.isEnd = false) :
    s.remaining = s.take.1 :: s.take.2.remaining := by
  simp only [remaining, drain]
  rw [drainOnto, if_neg (by simp [h]), drainOnto_eq]
  simp

theorem drain_of_isEnd {s : Scanner} (h : s.take.1.isEnd = true) : s.drain.2 = s.take.2 := by
  simp only [drain]
  rw [drainOnto, if_pos h]

theorem drain_of_not_isEnd {s : Scanner} (h : s.take.1.isEnd = false) :
    s.drain.2 = s.take.2.drain.2 := by
  simp only [drain]
  rw [drainOnto, if_neg (by simp [h]), drainOnto_eq]

/-- A look at the next token does not change what is ahead. -/
theorem remaining_peek (s : Scanner) : s.peek.2.remaining = s.remaining := by
  cases h : s.take.1.isEnd with
  | true =>
    have h' : s.peek.2.take.1.isEnd = true := by rw [s.take_peek, h]
    rw [remaining_of_isEnd h, remaining_of_isEnd h', s.take_peek]
  | false =>
    have h' : s.peek.2.take.1.isEnd = false := by rw [s.take_peek, h]
    rw [remaining_of_not_isEnd h, remaining_of_not_isEnd h', s.take_peek]

/-! ## Reachable scanners -/

/-- A scanner that is reached from the start of the text by taking tokens, looking at them and
asking `next?` for them. -/
inductive Reachable (text : String) : Scanner → Prop
  | start : Reachable text (.ofString text)
  | take {s : Scanner} (h : Reachable text s) : Reachable text s.take.2
  | peek {s : Scanner} (h : Reachable text s) : Reachable text s.peek.2
  | next {s : Scanner} (h : Reachable text s) : Reachable text s.next?.2

theorem Reachable.drain {text : String} {s : Scanner} (h : s.Reachable text) :
    s.drain.2.Reachable text := by
  induction hn : s.size using Nat.strongRecOn generalizing s with
  | ind n ih =>
    cases he : s.take.1.isEnd with
    | true =>
      rw [drain_of_isEnd he]
      exact h.take
    | false =>
      rw [drain_of_not_isEnd he]
      exact ih _ (hn ▸ size_take_lt he) h.take rfl

/-- A pending end of input is where the text ends. -/
def Coherent (s : Scanner) : Prop :=
  ∀ t, s.pending = some t → t.isEnd = true → s.rest = [] ∧ t = .endOfInput s.location

theorem Coherent.take {s : Scanner} (h : s.Coherent) : s.take.2.Coherent := by
  rcases s with ⟨rest, l, _ | t, e⟩ <;> intro u hu _
  · simp [Scanner.take] at hu
  · simp [Scanner.take] at hu

theorem Coherent.peek {s : Scanner} (h : s.Coherent) : s.peek.2.Coherent := by
  rcases s with ⟨rest, l, _ | t, e⟩
  · intro u hu he
    simp only [Scanner.peek, Scanner.take, Option.some.injEq] at hu
    subst hu
    have hs := scan_of_isEnd he
    exact ⟨congrArg Scan.rest hs, congrArg Scan.token hs⟩
  · exact h

theorem Coherent.next {s : Scanner} (h : s.Coherent) : s.next?.2.Coherent := by
  unfold next?
  split
  · exact h
  · exact h.take

theorem Reachable.coherent {text : String} {s : Scanner} (h : s.Reachable text) : s.Coherent := by
  induction h with
  | start => exact fun t ht => by simp [ofString] at ht
  | take _ ih => exact ih.take
  | peek _ ih => exact ih.peek
  | next _ ih => exact ih.next

/-- At the end of the text a coherent scanner gives the same token again and again. -/
theorem Coherent.take_take {s : Scanner} (h : s.Coherent) (he : s.take.1.isEnd = true) :
    s.take.2.take.1 = s.take.1 ∧ s.take.1 = .endOfInput s.take.1.location := by
  rcases s with ⟨rest, l, _ | t, e⟩
  · have hs := scan_of_isEnd he
    simp only [Scanner.take]
    rw [hs]
    exact ⟨rfl, rfl⟩
  · obtain ⟨hr, ht⟩ := h t rfl he
    simp only at hr ht
    subst hr ht
    exact ⟨rfl, rfl⟩

/-! ## Scanner and tape -/

/-- The scanner has ahead what the tape holds. -/
structure ReadsAs (s : Scanner) (t : Tape) : Prop where
  coherent : s.Coherent
  remaining_eq : s.remaining = t.upcoming ++ [.endOfInput t.finish]
  isEnd_eq_false : ∀ u ∈ t.upcoming, u.isEnd = false

namespace ReadsAs

theorem fst_take {s : Scanner} {t : Tape} (h : s.ReadsAs t) : s.take.1 = t.take.1 := by
  have hr := h.remaining_eq
  rcases t with ⟨_ | ⟨u, us⟩, l⟩ <;> cases he : s.take.1.isEnd
  · rw [remaining_of_not_isEnd he] at hr
    simp only [List.nil_append, List.cons.injEq] at hr
    rw [hr.1] at he
    cases he
  · rw [remaining_of_isEnd he] at hr
    exact (List.cons.inj hr).1
  · rw [remaining_of_not_isEnd he] at hr
    exact (List.cons.inj hr).1
  · rw [remaining_of_isEnd he] at hr
    simp at hr

theorem take {s : Scanner} {t : Tape} (h : s.ReadsAs t) : s.take.2.ReadsAs t.take.2 := by
  have hf := h.fst_take
  have hr := h.remaining_eq
  refine ⟨h.coherent.take, ?_, ?_⟩
  · rcases t with ⟨_ | ⟨u, us⟩, l⟩
    · have he : s.take.1.isEnd = true := by rw [hf]; rfl
      obtain ⟨ht, -⟩ := h.coherent.take_take he
      rw [remaining_of_isEnd (ht ▸ he), ht, hf]
      rfl
    · have he : s.take.1.isEnd = false := by
        rw [hf]
        exact h.isEnd_eq_false u List.mem_cons_self
      rw [remaining_of_not_isEnd he] at hr
      exact (List.cons.inj hr).2
  · rcases t with ⟨_ | ⟨u, us⟩, l⟩
    · exact h.isEnd_eq_false
    · exact fun v hv => h.isEnd_eq_false v (List.mem_cons_of_mem u hv)

theorem peek {s : Scanner} {t : Tape} (h : s.ReadsAs t) : s.peek.2.ReadsAs t.peek.2 := by
  have ht : t.peek.2 = t := by rcases t with ⟨_ | _, _⟩ <;> rfl
  rw [ht]
  exact ⟨h.coherent.peek, by rw [remaining_peek, h.remaining_eq], h.isEnd_eq_false⟩

end ReadsAs

/-- **A scanner reads like the tape of its tokens.** -/
theorem simulation_readsAs : Simulation id ReadsAs where
  fst_peek {s t} h := by
    change (TokenSource.peek t).1 = (TokenSource.peek s).1
    rw [TokenSource.fst_peek, TokenSource.fst_peek]
    exact h.fst_take.symm
  peek h := h.peek
  take h := h.take
  note _ _ h := h

/-- Every coherent scanner has a tape ahead. -/
theorem Coherent.exists_readsAs {s : Scanner} (h : s.Coherent) : ∃ t, s.ReadsAs t := by
  induction hn : s.size using Nat.strongRecOn generalizing s with
  | ind n ih =>
    cases he : s.take.1.isEnd with
    | true =>
      refine ⟨⟨[], s.take.1.location⟩, h, ?_, by simp⟩
      rw [remaining_of_isEnd he, ← (h.take_take he).2]
      rfl
    | false =>
      obtain ⟨t, ht⟩ := ih _ (hn ▸ size_take_lt he) h.take rfl
      refine ⟨⟨s.take.1 :: t.upcoming, t.finish⟩, h, ?_, ?_⟩
      · rw [remaining_of_not_isEnd he, ht.remaining_eq]
        rfl
      · intro u hu
        rcases List.mem_cons.1 hu with rfl | hu
        · exact he
        · exact ht.isEnd_eq_false u hu

theorem Reachable.exists_readsAs {text : String} {s : Scanner} (h : s.Reachable text) :
    ∃ t, s.ReadsAs t :=
  h.coherent.exists_readsAs

end Scanner

end SqlScript
