import SqlScript.Proofs.Cutting
import SqlScript.Proofs.Leaves
import SqlScript.Proofs.LiteralPlaces
import SqlScript.Proofs.RealLiterals
import SqlScript.Proofs.Respelling
import SqlScript.Proofs.RoundTrip

/-!
# Reading integer literals

An integer literal of any length writes an integer (`Token.WritesInteger`). Its token is the value
of that integer if 32 bits are enough for it, and otherwise an error that leaves the token in place:
no literal is read as some other number. That holds for the two rules that read values, and so for
every place of a literal in a statement (`integers_read_exactly`). The decimal notation of a 32-bit
integer is such a literal, and it is scanned as one token wherever no digit and no point comes
behind it (`tokens_integer`).
-/

namespace SqlScript

open TokenSource Grammar Phrase Lexeme

/-! ## The integer that a literal writes -/

/-- The token is an integer literal that writes `n`: a sign or none, and then a zero or digits
without a zero in front. -/
def Token.WritesInteger (t : Token) (n : ℤ) : Prop :=
  t.kind = .literal .int ∧ ∃ sign ∈ Lexicon.sign, ∃ whole ∈ Lexicon.whole,
    t.text.toList = sign ++ whole ∧ integerValue sign whole = n

/-- The integer is one of 32 bits. -/
def FitsInt32 (n : ℤ) : Prop := -2 ^ 31 ≤ n ∧ n ≤ 2 ^ 31 - 1

instance : DecidablePred FitsInt32 := fun n =>
  inferInstanceAs (Decidable (-2 ^ 31 ≤ n ∧ n ≤ 2 ^ 31 - 1))

theorem fitsInt32_toInt (i : Int32) : FitsInt32 i.toInt := by
  have hl := Int32.le_toInt i
  have hu := Int32.toInt_lt i
  constructor <;> omega

namespace Token.WritesInteger

variable {t : Token} {n : ℤ}

theorem denotesInteger (h : t.WritesInteger n) : DenotesInteger t.text.toList n := by
  obtain ⟨-, sign, hsign, whole, hwhole, htext, hvalue⟩ := h
  exact ⟨sign, hsign, whole, Lexicon.mem_digits_of_mem_whole hwhole, htext, hvalue⟩

/-- An integer of 32 bits is the value of its literals. -/
theorem writesValue (h : t.WritesInteger n) {i : Int32} (hi : i.toInt = n) :
    WritesValue t (.integer i) :=
  .integer h.1 (hi ▸ h.denotesInteger)

/-- Another integer is the value of none. -/
theorem ofToken_eq_error (h : t.WritesInteger n) (hn : ¬ FitsInt32 n) :
    Value.ofToken t = .error .integerInRange := by
  have hnone : Numeral.integer? t.text.toList = none :=
    Option.eq_none_iff_forall_ne_some.2 fun i hi => by
      rw [h.denotesInteger.unique (Numeral.integer?_eq_some_iff.1 hi)] at hn
      exact hn (fitsInt32_toInt i)
  rw [Value.ofToken_of_int h.1, hnone]
  rfl

end Token.WritesInteger

/-- Every integer literal of a text writes an integer. -/
theorem exists_writesInteger_of_mem_tokens {l : Location} {cs : List Char} {t : Token}
    (h : t ∈ tokens l cs) (hk : t.kind = .literal .int) : ∃ n, t.WritesInteger n := by
  have hlexicon := inLexicon_of_mem_tokens h (by simp [hk]) (by simp [hk])
  rw [hk] at hlexicon
  obtain ⟨sign, hsign, whole, hwhole, htext⟩ := hlexicon
  exact ⟨_, hk, sign, hsign, whole, hwhole, htext.symm, rfl⟩

/-! ## Scanning -/

/-- **An integer literal is scanned as one token** if neither a digit nor a point comes behind. -/
theorem tokens_integer {sign whole r : List Char} (hsign : sign ∈ Lexicon.sign)
    (hwhole : whole ∈ Lexicon.whole) (hr : ∀ c ∈ r.head?, c.isDigit = false ∧ c ≠ '.')
    (l : Location) : tokens l (sign ++ whole ++ r) =
      ⟨.literal .int, String.ofList (sign ++ whole), l⟩ ::
        tokens (l.after (sign ++ whole)) r := by
  have hspan := wholePart_append_of_mem_whole hwhole fun c hc => (hr c hc).1
  have hpoint : r.head? ≠ some '.' := fun h => (hr '.' h).2 rfl
  obtain ⟨d, ds, rfl, hd, -⟩ := Lexicon.mem_digits.1 (Lexicon.mem_digits_of_mem_whole hwhole)
  obtain ⟨c, r', hc, hfirst⟩ := exists_first_eq_number hsign hd (ds ++ r)
  rw [← List.cons_append] at hc hfirst
  rw [number_of_wholePart hspan hpoint] at hfirst
  have hblank : isBlank c = false := by
    rcases Lexicon.mem_sign.1 hsign with rfl | ⟨s, hs, rfl⟩
    · obtain ⟨rfl, -⟩ := List.cons.inj hc
      exact not_isBlank_of_isAlphanum (isAlphanum_of_isDigit hd)
    · obtain ⟨rfl, -⟩ := List.cons.inj hc
      obtain rfl | rfl : s = '+' ∨ s = '-' := by simpa [isSign] using hs
      all_goals rfl
  rw [List.append_assoc, hc, tokens_cons_of_not_isBlank hblank, hfirst]

/-! ## Places in a script -/

/-- What a scanner has ahead up to a token, its tape has too. -/
theorem Scanner.ReadsAs.exists_upcoming_eq {s : Scanner} {t : Tape} (h : s.ReadsAs t)
    {p r : List Token} {u : Token} (hu : u.isEnd = false) (hr : s.remaining = p ++ u :: r) :
    ∃ r', t.upcoming = p ++ u :: r' ∧ r = r' ++ [.endOfInput t.finish] := by
  rw [h.remaining_eq] at hr
  rcases List.eq_nil_or_concat r with rfl | ⟨r', e, rfl⟩
  · obtain ⟨-, he⟩ := List.append_inj' hr rfl
    obtain rfl := (List.cons.inj he).1
    cases hu
  · rw [List.concat_eq_append, ← List.cons_append, ← List.append_assoc] at hr
    obtain ⟨hp, he⟩ := List.append_inj' hr rfl
    obtain rfl := (List.cons.inj he).1
    exact ⟨r', hp, List.concat_eq_append⟩

/-- A sentence that a scanner has ahead is read. -/
theorem Scanner.Reachable.run_statement_of_derives {text : String} {s : Scanner}
    (h : s.Reachable text) {p r : List Token} {st : Statement} (hd : Derives p st)
    (hr : s.remaining = p ++ r) :
    ∃ s', statement.run s = (.ok st, s') ∧ s'.remaining = r := by
  obtain ⟨t, ht⟩ := h.exists_readsAs
  have hrun := simulation_readsAs.statement ht
  obtain ⟨q, e, rfl, he⟩ := hd.exists_concat
  rw [List.append_assoc, List.singleton_append] at hr
  obtain ⟨r', hup, rfl⟩ := ht.exists_upcoming_eq (by simp [Token.isEnd, he]) hr
  have hstatement := (reads_statement _ t.finish _ _).2
    ⟨q ++ [e], r', List.append_cons .., hd, trivial, rfl⟩
  rw [← hup] at hstatement
  rw [hstatement] at hrun
  generalize statement.run s = x at hrun
  cases hrun with
  | ok h' => exact ⟨_, rfl, h'.remaining_eq⟩

/-- A literal ahead that is no value is where the statement fails. -/
theorem Scanner.Reachable.run_statement_of_error {text : String} {s : Scanner}
    (h : s.Reachable text) {p q r : List Token} {f : Value → Statement}
    (hplace : AroundLiteral p q f) {t : Token} {d : DataType} (hk : t.kind = .literal d)
    {y : Expectation} (hy : Value.ofToken t = .error y) (hr : s.remaining = p ++ t :: r) :
    ∃ s', statement.run s = (.error ⟨y, t⟩, s') ∧ s'.remaining = t :: r := by
  obtain ⟨tape, ht⟩ := h.exists_readsAs
  have hrun := simulation_readsAs.statement ht
  obtain ⟨r', hup, rfl⟩ := ht.exists_upcoming_eq (by simp [Token.isEnd, hk]) hr
  have hfail := hplace.run_statement_of_error (l := tape.finish) hk hy r'
  rw [← hup] at hfail
  rw [hfail] at hrun
  generalize statement.run s = x at hrun
  cases hrun with
  | error h' hu hv =>
    have htoken := simulation_readsAs.fst_peek h'
    rw [hu, Token.relocate_id] at htoken
    obtain rfl : t = _ := htoken
    exact ⟨_, rfl, h'.remaining_eq⟩

/-- An operand that is a literal is a value. -/
theorem Grammar.run_operand_of_literal {σ : Type} [TokenSource σ] {s : σ} {d : DataType}
    (h : (peek s).1.kind = .literal d) : operand.run s = (Operand.value <$> value).run s := by
  rw [operand, value, Rule.run_map, Rule.token, Rule.token]
  dsimp only
  rw [Operand.ofToken_of_literal h]
  rcases Value.ofToken (peek s).1 with _ | _ <;> rfl

/-! ## Integer literals -/

theorem Condition.clauseLeaves_map_reread (c : Option Condition) :
    clauseLeaves (c.map reread) = (clauseLeaves c).map Operand.reread := by
  cases c with
  | none => rfl
  | some c => rfl

/-- Reading the reals back is done leaf by leaf. -/
theorem Statement.leaves_reread (st : Statement) :
    st.reread.leaves = st.leaves.map Operand.reread := by
  cases st with
  | createTable => simp [reread, leaves, Operand.reread]
  | select => simp [reread, leaves, Operand.reread, Condition.clauseLeaves_map_reread]
  | insert => simp [reread, leaves, Function.comp_def, Operand.reread]
  | delete => simp [reread, leaves, Operand.reread, Condition.clauseLeaves_map_reread]
  | dropTable => rfl

/-- Wherever a value is read, the token is taken and is the integer `i`: by the two rules for
values, from any source that has it next, and in a statement around it. -/
structure Token.IsInteger (t : Token) (i : Int32) : Prop where
  value : ∀ {σ : Type} [TokenSource σ] (s : σ), (peek s).1 = t →
    Grammar.value.run s = (.ok (.integer i), (take s).2)
  operand : ∀ {σ : Type} [TokenSource σ] (s : σ), (peek s).1 = t →
    Grammar.operand.run s = (.ok (.value (.integer i)), (take s).2)
  statement : ∀ {text : String} {s : Scanner} {p q r : List Token} {f : Value → Statement},
    s.Reachable text → AroundLiteral p q f → s.remaining = p ++ t :: (q ++ r) →
    ∃ s', Grammar.statement.run s = (.ok (f (.integer i)), s') ∧ s'.remaining = r

/-- Wherever a value is read, the token is reported as an integer out of range and left in place,
in a statement whatever stands behind it. -/
structure Token.IsOutOfRange (t : Token) (e : SyntaxError) : Prop where
  token : e.token = t
  diagnostic : e.diagnostic = ⟨"Int in 32-bit range", t.kind, t.text, t.location⟩
  value : ∀ {σ : Type} [TokenSource σ] (s : σ), (peek s).1 = t →
    Grammar.value.run s = (.error e, (peek s).2) ∧ take (peek s).2 = take s
  operand : ∀ {σ : Type} [TokenSource σ] (s : σ), (peek s).1 = t →
    Grammar.operand.run s = (.error e, (peek s).2) ∧ take (peek s).2 = take s
  statement : ∀ {text : String} {s : Scanner} {p q r : List Token} {f : Value → Statement},
    s.Reachable text → AroundLiteral p q f → s.remaining = p ++ t :: r →
    ∃ s', Grammar.statement.run s = (.error e, s') ∧ s'.remaining = t :: r

namespace Token.WritesInteger

variable {t : Token} {n : ℤ}

theorem isInteger (h : t.WritesInteger n) {i : Int32} (hi : i.toInt = n) : t.IsInteger i := by
  have hv : WritesValue t (.integer i) := h.writesValue hi
  have hvalue {σ : Type} [TokenSource σ] (s : σ) (hs : (peek s).1 = t) :
      Grammar.value.run s = (.ok (.integer i), (take s).2) := by
    rw [run_value, hs, Value.ofToken_eq_ok_iff.2 hv]
  refine ⟨hvalue, fun s hs => ?_, fun hs hplace hr => ?_⟩
  · rw [run_operand_of_literal (hs ▸ h.1), Rule.run_map, hvalue s hs]
  · exact hs.run_statement_of_derives (hplace.derives hv) (by simpa using hr)

theorem isOutOfRange (h : t.WritesInteger n) (hn : ¬ FitsInt32 n) :
    t.IsOutOfRange ⟨.integerInRange, t⟩ := by
  have ht := h.ofToken_eq_error hn
  have hvalue {σ : Type} [TokenSource σ] (s : σ) (hs : (peek s).1 = t) :
      Grammar.value.run s = (.error ⟨.integerInRange, t⟩, (peek s).2) := by
    rw [run_value, hs, ht]
  refine ⟨rfl, rfl, fun s hs => ⟨hvalue s hs, take_peek s⟩, fun s hs => ⟨?_, take_peek s⟩,
    fun hs hplace hr => hs.run_statement_of_error hplace h.1 ht hr⟩
  rw [run_operand_of_literal (hs ▸ h.1), Rule.run_map, hvalue s hs]

end Token.WritesInteger

/-- **Integer literals are read exactly or not at all.** Every integer literal of a text writes an
integer. If 32 bits are enough for it, its token is read as that integer, and if not it is out of
range, wherever a value is read: among the values to insert and on both sides of a comparison.
The decimal notation of a 32-bit integer is a literal that writes it. It is scanned as one token in
front of anything but a digit or a point, and every statement that holds the integer is read back
from its canonical spelling with the same integer in its place. -/
theorem integers_read_exactly :
    (∀ {l : Location} {cs : List Char} {t : Token}, t ∈ tokens l cs → t.kind = .literal .int →
      ∃ n, t.WritesInteger n) ∧
    (∀ {t : Token} {n : ℤ}, t.WritesInteger n →
      (FitsInt32 n → ∃ i : Int32, i.toInt = n ∧ t.IsInteger i) ∧
      (¬ FitsInt32 n → ∃ e, t.IsOutOfRange e)) ∧
    ∀ i : Int32,
      (∀ l, Token.WritesInteger ⟨.literal .int, (Value.integer i).render, l⟩ i.toInt) ∧
      (∀ {r : List Char}, (∀ c ∈ r.head?, c.isDigit = false ∧ c ≠ '.') → ∀ l,
        tokens l ((Value.integer i).render.toList ++ r) =
          ⟨.literal .int, (Value.integer i).render, l⟩ ::
            tokens (l.after (Value.integer i).render.toList) r) ∧
      ∀ {st : Statement} {k : ℕ}, st.WellFormed → st.leaves[k]? = some (.value (.integer i)) →
        ∃ st', parseScript (Script.render ⟨[st]⟩) = ⟨⟨[st']⟩, []⟩ ∧
          st'.leaves[k]? = some (.value (.integer i)) := by
  refine ⟨exists_writesInteger_of_mem_tokens, fun {t n} h => ⟨fun hn => ?_, fun hn => ?_⟩,
    fun i => ⟨fun l => ?_, ?_, ?_⟩⟩
  · have hi : (Int32.ofInt n).toInt = n :=
      Int32.toInt_ofInt_of_le hn.1 (Int.lt_of_le_sub_one hn.2)
    exact ⟨_, hi, h.isInteger hi⟩
  · exact ⟨_, h.isOutOfRange hn⟩
  · exact ⟨rfl, exists_toList_toString_int i.toInt⟩
  · intro r hr l
    obtain ⟨sign, hsign, whole, hwhole, htext, -⟩ := exists_toList_toString_int i.toInt
    have htokens := tokens_integer hsign hwhole hr l
    rwa [← htext, String.ofList_toList] at htokens
  · intro st k hst hk
    have hscript : Script.WellFormed ⟨[st]⟩ := List.forall_mem_singleton.2 hst
    refine ⟨st.reread, parseScript_render hscript, ?_⟩
    rw [Statement.leaves_reread, List.getElem?_map, hk]
    rfl

/-- The least integer of 32 bits is read and written; the one below it is an error. -/
theorem integers_read_exactly_least :
    (∃ s', statement.run (Scanner.ofString "DELETE FROM t WHERE -2147483648 <= a;") =
        (.ok (.delete "t" (some ⟨.value (.integer (-2147483648)), .lessEqual, .column "a"⟩)), s') ∧
      s'.remaining = [.endOfInput ⟨37, 1, 38⟩]) ∧
    (∃ e s', statement.run (Scanner.ofString "DELETE FROM t WHERE -2147483649") = (.error e, s') ∧
      e.message = "Expected Int in 32-bit range, got Int '-2147483649' 1:21" ∧
      s'.remaining = [⟨.literal .int, "-2147483649", ⟨20, 1, 21⟩⟩, .endOfInput ⟨31, 1, 32⟩]) ∧
    ∃ st', parseScript "DELETE FROM t WHERE -2147483648 <= a;\n" = ⟨⟨[st']⟩, []⟩ ∧
      st'.leaves[1]? = some (.value (.integer (-2147483648))) := by
  obtain ⟨-, hread, hwrite⟩ := integers_read_exactly
  have hrender : (Value.integer (-2147483648)).render = "-2147483648" := by decide +kernel
  have hleast : Token.WritesInteger ⟨.literal .int, "-2147483648", ⟨20, 1, 21⟩⟩ (-2147483648) :=
    hrender ▸ (hwrite (-2147483648)).1 ⟨20, 1, 21⟩
  have hbelow : Token.WritesInteger ⟨.literal .int, "-2147483649", ⟨20, 1, 21⟩⟩ (-2147483649) := by
    refine ⟨rfl, ['-'], Lexicon.mem_sign.2 (.inr ⟨'-', rfl, rfl⟩), "2147483649".toList, ?_, rfl, ?_⟩
    · have hdigits := Lexicon.toDigits_mem_whole 2147483649
      rwa [show Nat.toDigits 10 2147483649 = "2147483649".toList by decide +kernel] at hdigits
    · decide +kernel
  have hplace : AroundLiteral
      [⟨.keyword .delete, "DELETE", .start⟩, ⟨.keyword .from_, "FROM", ⟨7, 1, 8⟩⟩,
        ⟨.identifier, "t", ⟨12, 1, 13⟩⟩, ⟨.keyword .where_, "WHERE", ⟨14, 1, 15⟩⟩]
      [⟨.comparison .lessEqual, "<=", ⟨32, 1, 33⟩⟩, ⟨.identifier, "a", ⟨35, 1, 36⟩⟩,
        ⟨.mark .semicolon, ";", ⟨36, 1, 37⟩⟩]
      fun v => .delete "t" (some ⟨.value v, .lessEqual, .column "a"⟩) :=
    .left (.delete rfl rfl rfl rfl) rfl (.column rfl) rfl
  refine ⟨?_, ?_, ?_⟩
  · obtain ⟨i, hi, hint⟩ := (hread hleast).1 (by decide)
    obtain rfl : i = -2147483648 := Int32.toInt_inj.1 (hi.trans (by decide))
    exact hint.statement .start hplace (by decide +kernel)
  · obtain ⟨e, herr⟩ := (hread hbelow).2 (by decide)
    have hs : (Scanner.ofString "DELETE FROM t WHERE -2147483649").Reachable _ := .start
    obtain ⟨s', hs', hr⟩ := herr.statement (r := [.endOfInput ⟨31, 1, 32⟩]) hs hplace
      (by decide +kernel)
    refine ⟨e, s', hs', ?_, hr⟩
    rw [SyntaxError.message, herr.diagnostic]
    decide +kernel
  · have hscript : (parseScript "DELETE FROM t WHERE -2147483648 <= a;").script = ⟨[.delete "t"
        (some ⟨.value (.integer (-2147483648)), .lessEqual, .column "a"⟩)]⟩ := by decide +kernel
    have hwell := wellFormed_parseScript "DELETE FROM t WHERE -2147483648 <= a;"
    rw [hscript] at hwell
    have hback := (hwrite (-2147483648)).2.2 (k := 1) (hwell _ List.mem_cons_self) rfl
    rwa [← hscript, show (parseScript "DELETE FROM t WHERE -2147483648 <= a;").script.render =
      "DELETE FROM t WHERE -2147483648 <= a;\n" by decide +kernel] at hback

end SqlScript
