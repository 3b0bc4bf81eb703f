import Mathlib
import SqlScript.Proofs.Derivation
import SqlScript.Proofs.Segments

/-!
# Errors point at the first impossible token

A list of tokens is viable if it can be continued to a sentence (`Viable`). A rule that fails stands
in front of the first token that makes what it has read no longer viable, and whatever it names
instead (`Expectation.Admits`) is possible there.

`Rule.Pinpoints x L` says so of a rule `x` that reads phrases of the language `L`: what it has taken
when it fails can be continued within `L` by each token that it names, and the failure is settled
by the token in front of which it stops, whatever stands behind it. This is shown for each way of
composing rules, and so for statements (`Grammar.pinpoints_statement`). Since the statement rule
does not fail on a sentence, no sentence goes on with that token (`Grammar.viable_of_error`). So the
errors of a text are pinned down segment by segment (`exists_reading_viable`).
-/

namespace SqlScript

open TokenSource

variable {α β : Type}

/-! ## Viable lists of tokens -/

/-- The lists of tokens that write something. -/
def Phrase.language (D : Phrase α) : Language Token := {p | ∃ a, D p a}

/-- The single tokens of a kind. -/
def Kind.tokens (k : Kind) : Language Token := {p | ∃ t, p = [t] ∧ t.kind = k}

theorem Phrase.Repeated.single {D : Phrase α} {p : List Token} {a : α} (h : D p a) :
    Repeated D p [a] := by
  have hs := Repeated.cons h .nil
  rwa [List.append_nil] at hs

/-- The sentences of the grammar. -/
def sentences : Language Token := Phrase.language Derives

/-- The tokens are a sentence, or the beginning of one. -/
def Viable (ts : List Token) : Prop := ∃ p, ts ++ p ∈ sentences

theorem Viable.of_append {q r : List Token} (h : Viable (q ++ r)) : Viable q := by
  obtain ⟨p, hp⟩ := h
  exact ⟨r ++ p, by rwa [← List.append_assoc]⟩

/-! ## What an expectation names -/

namespace Expectation

/-- The kinds of tokens that the expectation names. -/
def kinds : Expectation → List Kind
  | kind k => [k]
  | statement => [.keyword .create, .keyword .select, .keyword .insert, .keyword .delete,
      .keyword .drop]
  | columnType => DataType.all.map fun d => .keyword (.type d)
  | value => DataType.all.map .literal
  | operand => .identifier :: DataType.all.map .literal
  | comparison => Comparison.all.map .comparison
  | integerInRange => [.literal .int]
  | realInRange => [.literal .real]

/-- Words as a text lists them. -/
def enumerate : List String → String
  | [] => ""
  | [w] => w
  | [v, w] => v ++ " or " ++ w
  | w :: ws => w ++ ", " ++ enumerate ws

/-- The kinds that an expectation names, in words: a single one by its name, the words that a
statement starts with and the types of a column as a script spells them. -/
def listing (e : Expectation) : String :=
  enumerate (e.kinds.map fun
    | .keyword k => if e = .statement ∨ e = .columnType then k.spelling else k.name
    | k => k.name) ++
  if e = .integerInRange ∨ e = .realInRange then " in 32-bit range" else ""

/-- The description lists the kinds. -/
theorem description_eq (e : Expectation) : e.description = e.listing := by
  cases e with
  | kind k => cases k <;> simp [description, listing, kinds, enumerate, Kind.name]
  | _ => rfl

/-- A token that the expectation names: of one of the kinds, and a value if it is a literal, which
is to say in range. -/
def Admits (e : Expectation) (u : Token) : Prop :=
  u.kind ∈ e.kinds ∧ ∀ d, u.kind = .literal d → ∃ v, Phrase.WritesValue u v

/-- Every expectation names some token. -/
theorem exists_admits (e : Expectation) : ∃ u, e.Admits u := by
  have hint : Phrase.WritesValue ⟨.literal .int, "0", .start⟩ (.integer 0) :=
    Value.ofToken_eq_ok_iff.1 rfl
  have hreal : Phrase.WritesValue ⟨.literal .real, "0.0", .start⟩
      (.real ⟨false, 0, by decide⟩) := Value.ofToken_eq_ok_iff.1 (by rfl)
  cases e with
  | kind k =>
    cases k with
    | literal d =>
      cases d with
      | int => exact ⟨_, List.mem_singleton_self _, fun _ _ => ⟨_, hint⟩⟩
      | real => exact ⟨_, List.mem_singleton_self _, fun _ _ => ⟨_, hreal⟩⟩
      | text =>
        exact ⟨⟨.literal .text, "", .start⟩, List.mem_singleton_self _, fun _ _ => ⟨_, .text rfl⟩⟩
    | _ => exact ⟨⟨_, "", .start⟩, List.mem_singleton_self _, nofun⟩
  | statement => exact ⟨⟨.keyword .create, "", .start⟩, List.mem_cons_self, nofun⟩
  | columnType => exact ⟨⟨.keyword (.type .int), "", .start⟩, List.mem_cons_self, nofun⟩
  | value => exact ⟨_, List.mem_cons_self, fun _ _ => ⟨_, hint⟩⟩
  | operand => exact ⟨⟨.identifier, "", .start⟩, List.mem_cons_self, nofun⟩
  | comparison => exact ⟨⟨.comparison .less, "", .start⟩, List.mem_cons_self, nofun⟩
  | integerInRange => exact ⟨_, List.mem_cons_self, fun _ _ => ⟨_, hint⟩⟩
  | realInRange => exact ⟨_, List.mem_cons_self, fun _ _ => ⟨_, hreal⟩⟩

end Expectation

theorem Value.eq_of_ofToken_error {t : Token} {x : Expectation} (h : Value.ofToken t = .error x) :
    x = .value ∨ x = .integerInRange ∨ x = .realInRange := by
  cases hk : t.kind with
  | literal d =>
    cases d with
    | int =>
      rw [ofToken_of_int hk] at h
      cases hn : Numeral.integer? t.text.toList with
      | none => rw [hn] at h; exact .inr (.inl (Except.error.inj h).symm)
      | some n => rw [hn] at h; cases h
    | real =>
      rw [ofToken_of_real hk] at h
      cases hx : Numeral.real? t.text.toList with
      | none => rw [hx] at h; exact .inr (.inr (Except.error.inj h).symm)
      | some n => rw [hx] at h; cases h
    | text => rw [ofToken_of_text hk] at h; cases h
  | _ => simp only [Value.ofToken, hk] at h; exact .inl (Except.error.inj h).symm

/-- Where a value fails, only literals are named. -/
theorem Value.exists_literal_of_ofToken_error {t : Token} {x : Expectation} {k : Kind}
    (h : Value.ofToken t = .error x) (hk : k ∈ x.kinds) : ∃ d, k = .literal d := by
  rcases Value.eq_of_ofToken_error h with rfl | rfl | rfl
  · obtain ⟨d, -, hd⟩ := List.mem_map.1 hk
    exact ⟨d, hd.symm⟩
  · exact ⟨_, List.mem_singleton.1 hk⟩
  · exact ⟨_, List.mem_singleton.1 hk⟩

/-- Where an operand fails, only identifiers and literals are named. -/
theorem Operand.identifier_or_literal_of_ofToken_error {t : Token} {x : Expectation} {k : Kind}
    (h : Operand.ofToken t = .error x) (hk : k ∈ x.kinds) :
    k = .identifier ∨ ∃ d, k = .literal d := by
  unfold Operand.ofToken at h
  split at h
  · cases h
  · cases hv : Value.ofToken t with
    | ok v => rw [hv] at h; cases h
    | error y =>
      rw [hv] at h
      obtain rfl := Except.error.inj h
      exact .inr (Value.exists_literal_of_ofToken_error hv hk)
  · obtain rfl := Except.error.inj h
    rcases List.mem_cons.1 hk with rfl | hk
    · exact .inl rfl
    · obtain ⟨d, -, hd⟩ := List.mem_map.1 hk
      exact .inr ⟨d, hd.symm⟩

/-- What is next is settled by any token ahead and those in front of it. -/
theorem Tape.peek_append_peek (q r : List Token) (l : Location) (r' : List Token) (l' : Location) :
    (TokenSource.peek (⟨q ++ (TokenSource.peek (⟨r, l⟩ : Tape)).1 :: r', l'⟩ : Tape)).1 =
      (TokenSource.peek (⟨q ++ r, l⟩ : Tape)).1 := by
  cases q with
  | nil => rfl
  | cons t q => rfl

namespace Rule

/-! ## Rules that fail in front of the first impossible token -/

/-- When the rule fails, it stands in front of the token that it reports. What it has taken can be
continued within the language by any token that it names. It fails in the same way whatever stands
behind that token. -/
structure Pinpoints (x : Rule Tape α) (L : Language Token) : Prop where
  exists_mem : ∃ p, p ∈ L
  of_error : ∀ {ts l e t'}, x.run ⟨ts, l⟩ = (.error e, t') →
    ∃ q r, ts = q ++ r ∧ t' = ⟨r, l⟩ ∧ e.token = (peek (⟨r, l⟩ : Tape)).1 ∧
      (∀ u, e.expected.Admits u → ∃ p, q ++ u :: p ∈ L) ∧
      ∀ r' l', x.run ⟨q ++ e.token :: r', l'⟩ = (.error e, ⟨e.token :: r', l'⟩)

/-- What `F` asks of the tokens ahead is settled by the first one: what stands behind some token, or
behind the end of input, may be replaced. -/
def SeesAhead (F : α → List Token → Prop) : Prop :=
  ∀ a q r l r', F a (q ++ r) → F a (q ++ (peek (⟨r, l⟩ : Tape)).1 :: r')

theorem ahead_append_peek {k : Kind} (hk : k ≠ .endOfInput) (q r : List Token) (l : Location)
    (r' : List Token) :
    ahead k (q ++ (peek (⟨r, l⟩ : Tape)).1 :: r') = ahead k (q ++ r) := by
  rcases q with _ | ⟨t, q⟩
  · rcases r with _ | ⟨t, r⟩
    · exact decide_eq_false hk.symm
    · rfl
  · rfl

theorem seesAhead_true : SeesAhead fun (_ : α) _ => True := fun _ _ _ _ _ _ => trivial

theorem seesAhead_ahead {k : Kind} (hk : k ≠ .endOfInput) {b : Bool} :
    SeesAhead fun (_ : α) r => ahead k r = b :=
  fun _ q r l r' h => (ahead_append_peek hk q r l r').trans h

variable {D : Phrase α} {F : α → List Token → Prop} {L M : Language Token}

theorem Pinpoints.mono {x : Rule Tape α} (h : x.Pinpoints L) (hLM : ∀ p ∈ L, p ∈ M) :
    x.Pinpoints M where
  exists_mem := h.exists_mem.imp hLM
  of_error he := by
    obtain ⟨q, r, hts, ht', hpeek, hu, hlocal⟩ := h.of_error he
    exact ⟨q, r, hts, ht', hpeek, fun u hu' => (hu u hu').imp fun _ => hLM _, hlocal⟩

theorem pinpoints_pure (a : α) : (pure a : Rule Tape α).Pinpoints 1 where
  exists_mem := ⟨[], rfl⟩
  of_error h := by cases h

theorem Pinpoints.map {x : Rule Tape α} (h : x.Pinpoints L) (g : α → β) :
    (g <$> x).Pinpoints L where
  exists_mem := h.exists_mem
  of_error he := by
    have herr : ∀ {s e t'}, (g <$> x).run s = (.error e, t') ↔ x.run s = (.error e, t') := by
      intro s e t'
      rw [run_map]
      rcases x.run s with ⟨_ | _, _⟩ <;> simp
    simp only [herr] at he ⊢
    exact h.of_error he

/-- In a sequence the failure of the second rule is continued behind the phrase of the first one. -/
theorem Pinpoints.bind {x : Rule Tape α} {f : α → Rule Tape β} (hx : x.Recognizes D F)
    (hF : SeesAhead F) (px : x.Pinpoints D.language) (pf : ∀ a, (f a).Pinpoints M) :
    (x >>= f).Pinpoints (D.language * M) where
  exists_mem := by
    obtain ⟨p, a, hp⟩ := px.exists_mem
    obtain ⟨q, hq⟩ := (pf a).exists_mem
    exact ⟨p ++ q, Language.append_mem_mul ⟨a, hp⟩ hq⟩
  of_error {ts l e t'} h := by
    rw [run_bind] at h
    split at h
    · next a s₁ ha =>
      obtain ⟨p, r₁, rfl, hp, hr₁, rfl⟩ := (hx _ _ _ _).1 ha
      obtain ⟨q, r, rfl, ht', hpeek, hu, hlocal⟩ := (pf a).of_error h
      refine ⟨p ++ q, r, (List.append_assoc ..).symm, ht', hpeek, fun u hu' => ?_, fun r' l' => ?_⟩
      · obtain ⟨p', hp'⟩ := hu u hu'
        exact ⟨p', List.append_assoc p q _ ▸ Language.append_mem_mul ⟨a, hp⟩ hp'⟩
      · have ha' := (hx (p ++ q ++ e.token :: r') l' a ⟨q ++ e.token :: r', l'⟩).2
          ⟨p, _, List.append_assoc .., hp, hpeek ▸ hF a q r l r' hr₁, rfl⟩
        rw [run_bind, ha']
        exact hlocal r' l'
    · next e' s₁ he =>
      obtain ⟨he', ht'⟩ := Prod.mk.inj h
      obtain rfl := Except.error.inj he'
      obtain ⟨q, r, rfl, rfl, hpeek, hu, hlocal⟩ := px.of_error he
      refine ⟨q, r, rfl, ht'.symm, hpeek, fun u hu' => ?_, fun r' l' => ?_⟩
      · obtain ⟨p, a, hp⟩ := hu u hu'
        obtain ⟨p', hp'⟩ := (pf a).exists_mem
        have hmem : q ++ u :: p ∈ D.language := ⟨a, hp⟩
        exact ⟨p ++ p', by simpa using Language.append_mem_mul hmem hp'⟩
      · rw [run_bind, hlocal]

/-- A repetition of rounds, the last of which takes nothing. -/
theorem Pinpoints.collect {step : Rule Tape (Option α)} {h : step.Advances}
    (hs : ∀ ts l a t', step.run ⟨ts, l⟩ = (.ok (some a), t') ↔
      ∃ p r, ts = p ++ r ∧ D p a ∧ t' = ⟨r, l⟩)
    (ps : step.Pinpoints (Phrase.Repeated D).language) :
    (Rule.collect step h).Pinpoints (Phrase.Repeated D).language where
  exists_mem := ⟨[], [], .nil⟩
  of_error {ts l e t'} he := by
    -- by induction on the tape, which a round that gives a value shortens
    induction hz : ts.length using Nat.strongRecOn generalizing ts with
    | ind n ih =>
      rw [run_collect] at he
      split at he
      · next e' s' hst =>
        obtain ⟨he', ht'⟩ := Prod.mk.inj he
        obtain rfl := Except.error.inj he'
        obtain ⟨q, r, rfl, rfl, hpeek, hu, hlocal⟩ := ps.of_error hst
        exact ⟨q, r, rfl, ht'.symm, hpeek, hu, fun r' l' => by rw [run_collect, hlocal]⟩
      · next s' hst => simp at he
      · next a s' hst =>
        have hlt := h _ _ _ hst rfl
        obtain ⟨p, r₁, rfl, hp, rfl⟩ := (hs _ _ _ _).1 hst
        change r₁.length < (p ++ r₁).length at hlt
        have hc : (Rule.collect step h).run ⟨r₁, l⟩ = (.error e, t') := by
          rw [run_map] at he
          split at he
          · cases he
          · next hc => exact hc.trans he
        obtain ⟨q, r, rfl, ht', hpeek, hu, hlocal⟩ := ih _ (hz ▸ hlt) hc rfl
        refine ⟨p ++ q, r, (List.append_assoc ..).symm, ht', hpeek, fun u hu' => ?_,
          fun r' l' => ?_⟩
        · obtain ⟨p', as, hp'⟩ := hu u hu'
          exact ⟨p', a :: as, List.append_assoc p q _ ▸ .cons hp hp'⟩
        · rw [run_collect, (hs _ _ _ _).2 ⟨p, q ++ e.token :: r', List.append_assoc .., hp, rfl⟩]
          dsimp only
          rw [run_map, hlocal]

/-- A list of one phrase and those behind it. -/
theorem Pinpoints.oneThen {x : Rule Tape α} {more : Rule Tape (List α)} {E : Phrase α}
    {Stop : List Token → Prop} (hx : x.Reads D) (px : x.Pinpoints D.language)
    (hmore : more.Recognizes (.Repeated E) fun _ r => Stop r)
    (hstop : SeesAhead fun (_ : List α) r => Stop r)
    (pmore : more.Pinpoints (Phrase.Repeated E).language) :
    (x >>= fun a => more >>= fun as => pure (a :: as)).Pinpoints
      (Phrase.OneThen D E).language := by
  refine (px.bind hx seesAhead_true fun a =>
    pmore.bind hmore hstop fun as => pinpoints_pure _).mono ?_
  simp only [Language.mem_mul, Language.mem_one]
  rintro _ ⟨p, ⟨a, hp⟩, _, ⟨q, ⟨as, hq⟩, _, rfl, rfl⟩, rfl⟩
  rw [List.append_nil]
  exact ⟨_, .intro hp hq⟩

/-- One token that is judged. -/
theorem pinpoints_token {f : Token → Except Expectation α} {M : Token → α → Prop}
    (hM : ∃ t a, M t a) (he : ∀ t x, f t = .error x → ∀ u, x.Admits u → ∃ a, M u a) :
    (token f).Pinpoints (Phrase.Single M).language where
  exists_mem := by
    obtain ⟨t, a, h⟩ := hM
    exact ⟨[t], a, .intro h⟩
  of_error {ts l e t'} h := by
    have hfail : ∀ {s : Tape} {x}, f (peek s).1 = .error x →
        (token f).run s = (.error ⟨x, (peek s).1⟩, s) := by
      intro s x hx
      have hs : (peek s).2 = s := Tape.snd_peek s
      simp only [token, hx, hs]
    cases hx : f (peek (⟨ts, l⟩ : Tape)).1 with
    | ok a => simp [token, hx] at h
    | error x =>
      rw [hfail hx] at h
      obtain ⟨he', rfl⟩ := Prod.mk.inj h
      obtain rfl := Except.error.inj he'
      refine ⟨[], ts, rfl, rfl, rfl, fun u hu => ?_, fun r' l' => hfail hx⟩
      obtain ⟨a, ha⟩ := he _ _ hx u hu
      exact ⟨[], a, .intro ha⟩

theorem pinpoints_expect (k : Kind) :
    (expect k).Pinpoints (Phrase.Single fun t w => t.kind = k ∧ t.text = w).language := by
  refine pinpoints_token ⟨⟨k, "", .start⟩, "", rfl, rfl⟩ fun t x hx u hu => ?_
  by_cases h : t.kind = k
  · simp [h] at hx
  · rw [if_neg h] at hx
    obtain rfl := Except.error.inj hx
    exact ⟨u.text, List.mem_singleton.1 hu.1, rfl⟩

/-- A word of the language and what comes behind it. -/
theorem Pinpoints.expect_bind {k : Kind} (hk : k ≠ .endOfInput) {f : String → Rule Tape β}
    (pf : ∀ w, (f w).Pinpoints L) : (expect k >>= f).Pinpoints (k.tokens * L) := by
  refine ((pinpoints_expect k).bind (reads_expect hk) seesAhead_true pf).mono ?_
  rintro _ ⟨_, ⟨w, ⟨ht, -⟩⟩, q, hq, rfl⟩
  exact Language.append_mem_mul ⟨_, rfl, ht⟩ hq

section
variable {f : String → Rule Tape β} (pf : ∀ w, (f w).Pinpoints L)
include pf

theorem Pinpoints.keyword_bind {k : Keyword} :
    (expect (.keyword k) >>= f).Pinpoints (Kind.tokens (.keyword k) * L) :=
  .expect_bind (by simp) pf

theorem Pinpoints.mark_bind {m : Mark} :
    (expect (.mark m) >>= f).Pinpoints (Kind.tokens (.mark m) * L) :=
  .expect_bind (by simp) pf

theorem Pinpoints.name_bind :
    (Grammar.name >>= f).Pinpoints (Kind.tokens .identifier * L) :=
  .expect_bind (by simp) pf

end

/-- An optional word and what comes behind it, or what comes without it. -/
theorem Pinpoints.accept_bind {k : Kind} {f : Bool → Rule Tape β} (hk : k ≠ .endOfInput)
    (pt : (f true).Pinpoints L) (pf : (f false).Pinpoints M) :
    (accept k >>= f).Pinpoints (k.tokens * L + M) where
  exists_mem := pf.exists_mem.imp fun _ => .inr
  of_error {ts l e t'} h := by
    have hrun : ∀ ts l, (accept k >>= f).run (⟨ts, l⟩ : Tape) =
        if ahead k ts = true then (f true).run ⟨ts.tail, l⟩ else (f false).run ⟨ts, l⟩ := by
      intro ts l
      rw [run_bind, run_accept hk]
      rcases ts with _ | ⟨t, r⟩
      · rfl
      · by_cases ht : t.kind = k <;> simp [ht, ahead_cons]
    rw [hrun] at h
    split at h
    · next ha =>
      obtain ⟨t, r₁, rfl, ht⟩ : ∃ t r, ts = t :: r ∧ t.kind = k := by
        rcases ts with _ | ⟨t, r⟩
        · cases ha
        · exact ⟨t, r, rfl, of_decide_eq_true ha⟩
      obtain ⟨q, r, rfl, ht', hpeek, hu, hlocal⟩ := pt.of_error h
      refine ⟨t :: q, r, rfl, ht', hpeek, fun u hu' => ?_, fun r' l' => ?_⟩
      · obtain ⟨p, hp⟩ := hu u hu'
        exact ⟨p, .inl (Language.append_mem_mul (a := [t]) ⟨t, rfl, ht⟩ hp)⟩
      · rw [hrun, List.cons_append, ahead_cons, ht, if_pos (decide_eq_true rfl), List.tail_cons,
          hlocal]
    · next ha =>
      obtain ⟨q, r, rfl, ht', hpeek, hu, hlocal⟩ := pf.of_error h
      refine ⟨q, r, rfl, ht', hpeek, fun u hu' => (hu u hu').imp fun _ => .inr, fun r' l' => ?_⟩
      rw [hrun, if_neg, hlocal]
      rwa [hpeek, ahead_append_peek hk]

/-- If a rule fails on an empty tape because it asks for a keyword, one of its phrases starts with
that keyword. -/
theorem Pinpoints.exists_cons_mem {x : Rule Tape α} {k : Keyword} (h : x.Pinpoints L)
    {e : SyntaxError} (hx : x.run ⟨[], .start⟩ = (.error e, ⟨[], .start⟩))
    (he : e.expected = .kind (.keyword k)) {u : Token} (hu : u.kind = .keyword k) :
    ∃ p, u :: p ∈ L := by
  obtain ⟨q, r, hq, -, -, hadmits, -⟩ := h.of_error hx
  obtain ⟨rfl, -⟩ := List.append_eq_nil_iff.1 hq.symm
  refine hadmits u ?_
  rw [he]
  exact ⟨List.mem_singleton.2 hu, fun d hd => by rw [hu] at hd; cases hd⟩

end Rule

namespace Grammar

open Rule Phrase

/-! ## The rules of the grammar -/

theorem pinpoints_name : (name (σ := Tape)).Pinpoints Name.language := pinpoints_expect _

theorem pinpoints_value : (value (σ := Tape)).Pinpoints OfValue.language := by
  refine pinpoints_token ⟨⟨.literal .text, "", .start⟩, _, .text rfl⟩ fun t x hx u hu => ?_
  obtain ⟨d, hd⟩ := Value.exists_literal_of_ofToken_error hx hu.1
  exact hu.2 d hd

theorem pinpoints_operand : (operand (σ := Tape)).Pinpoints (Single WritesOperand).language := by
  refine pinpoints_token ⟨⟨.identifier, "", .start⟩, _, .column rfl⟩ fun t x hx u hu => ?_
  rcases Operand.identifier_or_literal_of_ofToken_error hx hu.1 with hk | ⟨d, hd⟩
  · exact ⟨_, .column hk⟩
  · obtain ⟨v, hv⟩ := hu.2 d hd
    exact ⟨_, .value hv⟩

theorem pinpoints_comparison : (comparison (σ := Tape)).Pinpoints
    (Single fun t c => t.kind = .comparison c).language := by
  refine pinpoints_token ⟨⟨.comparison .less, "", .start⟩, _, rfl⟩ fun t x hx u hu => ?_
  unfold Comparison.ofToken at hx
  split at hx
  · cases hx
  · obtain rfl := Except.error.inj hx
    obtain ⟨c, -, hc⟩ := List.mem_map.1 hu.1
    exact ⟨c, hc.symm⟩

theorem pinpoints_dataType : (token (σ := Tape) DataType.ofToken).Pinpoints
    (Single fun t d => t.kind = .keyword (.type d)).language := by
  refine pinpoints_token ⟨⟨.keyword (.type .int), "", .start⟩, _, rfl⟩ fun t x hx u hu => ?_
  unfold DataType.ofToken at hx
  split at hx
  · cases hx
  · obtain rfl := Except.error.inj hx
    obtain ⟨d, -, hd⟩ := List.mem_map.1 hu.1
    exact ⟨d, hd.symm⟩

theorem pinpoints_column : (column (σ := Tape)).Pinpoints OfColumn.language := by
  refine (Pinpoints.name_bind fun n => pinpoints_dataType.bind reads_dataType seesAhead_true
    fun d => pinpoints_pure _).mono ?_
  simp only [Language.mem_mul, Language.mem_one]
  rintro _ ⟨_, ⟨n, rfl, hn⟩, _, ⟨_, ⟨d, ⟨hd⟩⟩, _, rfl, rfl⟩, rfl⟩
  exact ⟨_, .intro hn hd⟩

theorem pinpoints_condition : (condition (σ := Tape)).Pinpoints OfCondition.language := by
  refine (pinpoints_operand.bind reads_operand seesAhead_true fun left =>
    pinpoints_comparison.bind reads_comparison seesAhead_true fun c =>
    pinpoints_operand.bind reads_operand seesAhead_true fun right => pinpoints_pure _).mono ?_
  simp only [Language.mem_mul, Language.mem_one]
  rintro _ ⟨_, ⟨left, ⟨hl⟩⟩, _, ⟨_, ⟨c, ⟨hc⟩⟩, _, ⟨_, ⟨right, ⟨hr⟩⟩, _, rfl, rfl⟩, rfl⟩, rfl⟩
  exact ⟨_, .intro hl hc hr⟩

theorem pinpoints_whereClause : (whereClause (σ := Tape)).Pinpoints WhereClause.language := by
  refine (Pinpoints.accept_bind (f := fun b => if b then some <$> condition else pure none)
    (by decide) (pinpoints_condition.map some) (pinpoints_pure none)).mono ?_
  rintro _ (⟨_, ⟨w, rfl, hw⟩, p, ⟨c, hp⟩, rfl⟩ | rfl)
  · exact ⟨_, .present hw hp⟩
  · exact ⟨_, .absent⟩

theorem seesAhead_whereClause : SeesAhead fun (c : Option Condition) r =>
    c = none → ahead (.keyword .where_) r = false :=
  fun _ q r l r' h hc => (ahead_append_peek (by decide) q r l r').trans (h hc)

theorem pinpoints_commaList {x : Rule Tape α} {D : Phrase α} (hx : x.Reads D)
    (px : x.Pinpoints D.language) : (commaList x).Pinpoints (CommaList D).language := by
  have hnext : (nextItem x).Pinpoints (Repeated (AfterComma D)).language := by
    refine (Pinpoints.accept_bind (f := fun b => if b then some <$> x else pure none)
      (by decide) (px.map some) (pinpoints_pure none)).mono ?_
    rintro _ (⟨_, ⟨c, rfl, hc⟩, p, ⟨a, hp⟩, rfl⟩ | rfl)
    · exact ⟨_, .single (.intro hc hp)⟩
    · exact ⟨_, .nil⟩
  exact .oneThen hx px (recognizes_moreItems hx) (seesAhead_ahead (by decide))
    (.collect (fun ts l a t' => run_nextItem_eq_some_iff hx) hnext)

theorem pinpoints_selected : (selected (σ := Tape)).Pinpoints Names.language := by
  have hname : (some <$> name (σ := Tape)).Pinpoints (Repeated Name).language :=
    (pinpoints_name.map some).mono fun _ ⟨_, hp⟩ => ⟨_, .single hp⟩
  have hnext : (nextSelected (σ := Tape)).Pinpoints (Repeated Name).language := by
    refine ⟨hname.exists_mem, fun {ts l e t'} h => ?_⟩
    rw [run_nextSelected] at h
    split at h
    · cases h
    · next ha =>
      obtain ⟨q, r, rfl, ht', hpeek, hu, hlocal⟩ := hname.of_error h
      refine ⟨q, r, rfl, ht', hpeek, hu, fun r' l' => ?_⟩
      rw [run_nextSelected, if_neg, hlocal]
      rwa [hpeek, ahead_append_peek (by decide)]
  exact .oneThen reads_name pinpoints_name recognizes_moreSelected (seesAhead_ahead (by decide))
    (.collect (fun ts l n t' => run_nextSelected_eq_some_iff) hnext)

theorem pinpoints_createTable : (createTable (σ := Tape)).Pinpoints sentences := by
  refine (Pinpoints.keyword_bind fun _ => .keyword_bind fun _ => .name_bind fun table =>
    .mark_bind fun _ => (pinpoints_commaList reads_column pinpoints_column).bind
      (recognizes_commaList reads_column) (seesAhead_ahead (by decide)) fun columns =>
    .mark_bind fun _ => .mark_bind fun _ => pinpoints_pure _).mono ?_
  simp only [Language.mem_mul, Language.mem_one]
  rintro _ ⟨_, ⟨k₁, rfl, h₁⟩, _, ⟨_, ⟨k₂, rfl, h₂⟩, _, ⟨_, ⟨n, rfl, hn⟩, _, ⟨_, ⟨b, rfl, hb⟩, _,
    ⟨p, ⟨columns, hp⟩, _, ⟨_, ⟨b', rfl, hb'⟩, _, ⟨_, ⟨e, rfl, he⟩, _, rfl, rfl⟩, rfl⟩, rfl⟩, rfl⟩,
    rfl⟩, rfl⟩, rfl⟩
  exact ⟨_, .createTable h₁ h₂ hn hb hp hb' he⟩

theorem pinpoints_select : (select (σ := Tape)).Pinpoints sentences := by
  refine (Pinpoints.keyword_bind fun _ => pinpoints_selected.bind recognizes_selected
      (seesAhead_ahead (by decide)) fun columns =>
    .keyword_bind fun _ => .name_bind fun table =>
    pinpoints_whereClause.bind recognizes_whereClause seesAhead_whereClause fun c =>
    .mark_bind fun _ => pinpoints_pure _).mono ?_
  simp only [Language.mem_mul, Language.mem_one]
  rintro _ ⟨_, ⟨k₁, rfl, h₁⟩, _, ⟨p, ⟨columns, hp⟩, _, ⟨_, ⟨k₂, rfl, h₂⟩, _, ⟨_, ⟨n, rfl, hn⟩, _,
    ⟨q, ⟨c, hq⟩, _, ⟨_, ⟨e, rfl, he⟩, _, rfl, rfl⟩, rfl⟩, rfl⟩, rfl⟩, rfl⟩, rfl⟩
  exact ⟨_, .select h₁ hp h₂ hn hq he⟩

theorem pinpoints_insert : (insert (σ := Tape)).Pinpoints sentences := by
  refine (Pinpoints.keyword_bind fun _ => .keyword_bind fun _ => .name_bind fun table =>
    .mark_bind fun _ => (pinpoints_commaList reads_name pinpoints_name).bind
      (recognizes_commaList reads_name) (seesAhead_ahead (by decide)) fun columns =>
    .mark_bind fun _ => .keyword_bind fun _ =>
    .mark_bind fun _ => (pinpoints_commaList reads_value pinpoints_value).bind
      (recognizes_commaList reads_value) (seesAhead_ahead (by decide)) fun values =>
    .mark_bind fun _ => .mark_bind fun _ => pinpoints_pure _).mono ?_
  simp only [Language.mem_mul, Language.mem_one]
  rintro _ ⟨_, ⟨k₁, rfl, h₁⟩, _, ⟨_, ⟨k₂, rfl, h₂⟩, _, ⟨_, ⟨n, rfl, hn⟩, _, ⟨_, ⟨b, rfl, hb⟩, _,
    ⟨p, ⟨columns, hp⟩, _, ⟨_, ⟨b', rfl, hb'⟩, _, ⟨_, ⟨k₃, rfl, h₃⟩, _, ⟨_, ⟨d, rfl, hd⟩, _,
    ⟨q, ⟨values, hq⟩, _, ⟨_, ⟨d', rfl, hd'⟩, _, ⟨_, ⟨e, rfl, he⟩, _, rfl, rfl⟩, rfl⟩, rfl⟩, rfl⟩,
    rfl⟩, rfl⟩, rfl⟩, rfl⟩, rfl⟩, rfl⟩, rfl⟩
  exact ⟨_, .insert h₁ h₂ hn hb hp hb' h₃ hd hq hd' he⟩

theorem pinpoints_delete : (delete (σ := Tape)).Pinpoints sentences := by
  refine (Pinpoints.keyword_bind fun _ => .keyword_bind fun _ => .name_bind fun table =>
    pinpoints_whereClause.bind recognizes_whereClause seesAhead_whereClause fun c =>
    .mark_bind fun _ => pinpoints_pure _).mono ?_
  simp only [Language.mem_mul, Language.mem_one]
  rintro _ ⟨_, ⟨k₁, rfl, h₁⟩, _, ⟨_, ⟨k₂, rfl, h₂⟩, _, ⟨_, ⟨n, rfl, hn⟩, _, ⟨q, ⟨c, hq⟩, _,
    ⟨_, ⟨e, rfl, he⟩, _, rfl, rfl⟩, rfl⟩, rfl⟩, rfl⟩, rfl⟩
  exact ⟨_, .delete h₁ h₂ hn hq he⟩

theorem pinpoints_dropTable : (dropTable (σ := Tape)).Pinpoints sentences := by
  refine (Pinpoints.keyword_bind fun _ => .keyword_bind fun _ => .name_bind fun table =>
    .mark_bind fun _ => pinpoints_pure _).mono ?_
  simp only [Language.mem_mul, Language.mem_one]
  rintro _ ⟨_, ⟨k₁, rfl, h₁⟩, _, ⟨_, ⟨k₂, rfl, h₂⟩, _, ⟨_, ⟨n, rfl, hn⟩, _,
    ⟨_, ⟨e, rfl, he⟩, _, rfl, rfl⟩, rfl⟩, rfl⟩, rfl⟩
  exact ⟨_, .dropTable h₁ h₂ hn he⟩

/-- The rule for the statements that start with the token. -/
def startingWith (t : Token) : Rule Tape Statement :=
  match t.kind with
  | .keyword .create => createTable
  | .keyword .select => select
  | .keyword .insert => insert
  | .keyword .delete => delete
  | .keyword .drop => dropTable
  | _ => fail .statement t

theorem run_statement (s : Tape) : statement.run s = (startingWith (peek s).1).run s := by
  rw [statement, run_bind, look]
  dsimp only
  rw [show (peek s).2 = s from Tape.snd_peek s]
  rfl

theorem startingWith_cases (t : Token) :
    (startingWith t).Pinpoints sentences ∨ startingWith t = fail .statement t := by
  unfold startingWith
  split
  · exact .inl pinpoints_createTable
  · exact .inl pinpoints_select
  · exact .inl pinpoints_insert
  · exact .inl pinpoints_delete
  · exact .inl pinpoints_dropTable
  · exact .inr rfl

/-- Each word that a statement may start with is the start of a sentence. -/
theorem exists_cons_mem_sentences {u : Token} (hu : Expectation.statement.Admits u) :
    ∃ p, u :: p ∈ sentences := by
  have hk := hu.1
  simp only [Expectation.kinds, List.mem_cons, List.not_mem_nil, or_false] at hk
  rcases hk with hk | hk | hk | hk | hk
  · exact pinpoints_createTable.exists_cons_mem rfl rfl hk
  · exact pinpoints_select.exists_cons_mem rfl rfl hk
  · exact pinpoints_insert.exists_cons_mem rfl rfl hk
  · exact pinpoints_delete.exists_cons_mem rfl rfl hk
  · exact pinpoints_dropTable.exists_cons_mem rfl rfl hk

/-- **A statement fails in front of the first token that cannot stand there**, and names only what
can. -/
theorem pinpoints_statement : (statement (σ := Tape)).Pinpoints sentences where
  exists_mem := pinpoints_dropTable.exists_mem
  of_error {ts l e t'} h := by
    rw [run_statement] at h
    rcases startingWith_cases (peek (⟨ts, l⟩ : Tape)).1 with hp | hfail
    · obtain ⟨q, r, rfl, ht', hpeek, hu, hlocal⟩ := hp.of_error h
      refine ⟨q, r, rfl, ht', hpeek, hu, fun r' l' => ?_⟩
      rw [run_statement, hpeek, Tape.peek_append_peek, ← hpeek, hlocal]
    · rw [hfail] at h
      obtain ⟨he, rfl⟩ := Prod.mk.inj h
      obtain rfl := Except.error.inj he
      refine ⟨[], ts, rfl, rfl, rfl, fun u hu => exists_cons_mem_sentences hu, fun r' l' => ?_⟩
      rw [run_statement, List.nil_append, show ∀ t : Token, (peek (⟨t :: r', l'⟩ : Tape)).1 = t from
        fun _ => rfl]
      dsimp only
      rw [hfail]
      rfl

/-- **A statement that fails has taken viable tokens only**, and the token that it reports makes
them not viable. Each token that it names instead keeps them viable. -/
theorem viable_of_error {ts : List Token} {l : Location} {e : SyntaxError} {t' : Tape}
    (h : (statement (σ := Tape)).run ⟨ts, l⟩ = (.error e, t')) :
    ∃ q r, ts = q ++ r ∧ t' = ⟨r, l⟩ ∧ e.token = (peek (⟨r, l⟩ : Tape)).1 ∧
      Viable q ∧ ¬ Viable (q ++ [e.token]) ∧ ∀ u, e.expected.Admits u → Viable (q ++ [u]) := by
  obtain ⟨q, r, rfl, ht', hpeek, hu, hlocal⟩ := pinpoints_statement.of_error h
  have hnamed : ∀ u, e.expected.Admits u → Viable (q ++ [u]) := fun u hu' => by
    obtain ⟨p, hp⟩ := hu u hu'
    exact ⟨p, by rwa [List.append_assoc]⟩
  obtain ⟨u, hu'⟩ := e.expected.exists_admits
  refine ⟨q, r, rfl, ht', hpeek, (hnamed u hu').of_append, ?_, hnamed⟩
  rintro ⟨p, st, hd⟩
  rw [List.append_assoc] at hd
  have hok := (reads_statement (q ++ e.token :: p) l st ⟨[], l⟩).2
    ⟨_, [], (List.append_nil _).symm, hd, trivial, rfl⟩
  rw [hlocal] at hok
  cases hok

end Grammar

/-! ## Attempts on a text -/

namespace Tape

/-- A statement that fails on a terminated segment has not taken the semicolon. -/
theorem exists_of_error_terminated {q : List Token} (hq : IsPlain q) {e : Token}
    (he : e.kind = .mark .semicolon) {l : Location} {x : SyntaxError} {t' : Tape}
    (h : Grammar.statement.run (⟨q ++ [e], l⟩ : Tape) = (.error x, t')) :
    ∃ q', t' = ⟨q' ++ [e], l⟩ := by
  have hc := Grammar.statement_coupled (coupling_terminated he [] [] l l)
    (Q := fun _ _ => True) (fun _ _ => trivial) ⟨q, hq, rfl, rfl⟩
  rw [h] at hc
  cases hc with
  | error hR hu hv =>
    obtain ⟨q', -, rfl, -⟩ := hR
    exact ⟨q', rfl⟩

end Tape

/-- A failed attempt at a segment reports its first impossible token; that may be the end of input
if the segment is open. -/
theorem IsSegment.viable_of_attempt {seg : List Token} (h : IsSegment seg)
    (hend : ∀ t ∈ seg, t.isEnd = false) {l : Location} {e : SyntaxError} {n : Nat}
    (hat : (attempt (⟨seg, l⟩ : Tape)).1 = .recovered e n) :
    ∃ q r, (if isOpen seg then seg ++ [.endOfInput l] else seg) = q ++ e.token :: r ∧
      Viable q ∧ ¬ Viable (q ++ [e.token]) ∧ ∀ u, e.expected.Admits u → Viable (q ++ [u]) := by
  obtain ⟨t', hrun⟩ : ∃ t', Grammar.statement.run (⟨seg, l⟩ : Tape) = (.error e, t') := by
    unfold attempt at hat
    split at hat
    · cases hat
    · next e' s' he =>
      obtain ⟨rfl, -⟩ := Attempt.recovered.inj hat
      exact ⟨_, he⟩
  obtain ⟨q, r, rfl, rfl, hpeek, hv, hnv, hu⟩ := Grammar.viable_of_error hrun
  rcases h with ho | ⟨q', e', hsplit, hq', he'⟩
  · rw [if_pos ho]
    rcases r with _ | ⟨t, r⟩
    · exact ⟨q, [], by rw [hpeek, List.append_nil]; rfl, hv, hnv, hu⟩
    · exact ⟨q, r ++ [.endOfInput l], by rw [hpeek, List.append_assoc]; rfl, hv, hnv, hu⟩
  · have ho : isOpen (q ++ r) = false := by simp [hsplit, isOpen, he']
    have hq'' : ∀ t ∈ q', t.isEnd = false := fun t ht => hend t (by rw [hsplit]; simp [ht])
    rw [hsplit] at hrun
    obtain ⟨q₂, ht'⟩ := Tape.exists_of_error_terminated (Tape.isPlain_of_isOpen hq' hq'') he' hrun
    obtain rfl : r = q₂ ++ [e'] := (Tape.mk.inj ht').1
    rw [ho, if_neg (by decide)]
    rcases q₂ with _ | ⟨t, q₂⟩
    · exact ⟨q, [], by rw [hpeek]; rfl, hv, hnv, hu⟩
    · exact ⟨q, q₂ ++ [e'], by rw [hpeek]; rfl, hv, hnv, hu⟩

/-- **Errors point at the first impossible token and name only possible ones.** Take the tokens of
a segment at which the attempt failed, and the end of input behind them if there is no semicolon
among them. The error names one of them, and its report the kind, the text and the place of that
token; the tokens in front of it can be continued to a sentence, with this one they cannot. What the
report says was expected lists kinds of tokens, and with any token of these kinds, in range if it is
a literal, in place of the one that was found they can. -/
theorem exists_reading_viable (text : String) :
    ∃ run s' eof, Reading (.ofString text) run s' ∧ s'.take.1.isEnd = true ∧
      run.map Prod.fst = segments (properTokens text) ∧
      parseScript text = .ofAttempts (run.map Prod.snd) ∧
      Contribute (run.map Prod.snd) (parseScript text).script.statements
        (parseScript text).errors ∧
      (Scanner.ofString text).drain.1 = run.flatMap Prod.fst ++ [eof] ∧ eof.kind = .endOfInput ∧
      ∀ p e n, (p, .recovered e n) ∈ run →
        ∃ q t r, (if isOpen p then p ++ [eof] else p) = q ++ t :: r ∧
          e.token = t ∧ e.diagnostic = ⟨e.expected.listing, t.kind, t.text, t.location⟩ ∧
          (∀ q', q' <+: q → Viable q') ∧ ¬ Viable (q ++ [t]) ∧
          ∀ u, e.expected.Admits u → Viable (q ++ [u]) := by
  obtain ⟨l, run, s', hrun, hs', hremaining, hfst, hat⟩ := exists_reading_tape text
  obtain ⟨hp, hcontribute⟩ := hrun.contribute
  refine ⟨run, s', .endOfInput l, hrun, hs', hfst, hp, hcontribute, ?_, rfl, fun p e n hmem => ?_⟩
  · rw [List.flatMap_def, hfst, (segmented_segments _).flatten]
    exact hremaining
  · obtain ⟨hseg, hproper, ha⟩ := hat _ hmem
    obtain ⟨q, r, hsplit, hv, hnv, hu⟩ := hseg.viable_of_attempt
      (fun t ht => isEnd_eq_false_of_mem_properTokens (hproper t ht)) ha.symm
    refine ⟨q, e.token, r, hsplit, rfl, ?_, ?_, hnv, hu⟩
    · rw [← e.expected.description_eq]
      rfl
    · rintro q' ⟨r', rfl⟩
      exact hv.of_append

end SqlScript
