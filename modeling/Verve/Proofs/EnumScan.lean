import Verve.Proofs.Annotations

/-!
# The names an enum declares, found before its body is read

An enum records the names of its constructors before its body is read: `Parse.peekNames`
scans the tokens after the opening brace, counts parentheses and nothing else, and takes a
name where it opens the body or follows a comma outside parentheses. The body is then read
entry by entry, a name and parameter types in parentheses, and each entry binds one
constructor in the root scope.

The scan agrees with the reading on every enum that is read, whatever the parameter types
(`Parse.enumDecl_peeks_constructors`). A type reads a run of tokens whose parentheses balance
(`Parse.Balanced`, `Parse.typeExpr_balances`), and inside parentheses the scan passes over
such a run without taking a name (`Parse.peekNames_go_balanced`), so an entry leaves its name
and nothing else (`Parse.peekNames_go_entry`), and the comma after it lets the next name
count.
-/

namespace Verve
namespace Parse

/-! ## Moving over one token -/

/-- The tokens from the current one on. -/
def State.rest (s : State) : List Token := s.tokens.toList.drop s.pos

section Moves

variable {s s' : State}

/-- The tokens from a sound state on start with its current token. -/
theorem rest_eq_cons (hs : Sound s) :
    s.rest = tokenAt s.tokens s.pos :: { s with pos := s.pos + 1 }.rest := by
  have hlt : s.pos < s.tokens.toList.length := by simpa using hs.pos_lt
  have hget : s.tokens.toList[s.pos] = tokenAt s.tokens s.pos := by
    simpa [Array.getElem?_eq_getElem hs.pos_lt] using hs.getElem?_pos
  unfold State.rest
  rw [List.drop_eq_getElem_cons hlt, hget]

/-- `advance` on a token other than the end mark moves to the next one. -/
theorem advance_moves (hs : Sound s) (hk : (tokenAt s.tokens s.pos).kind ≠ .eof) {t : Token}
    (h : advance.run s = .ok (t, s')) :
    t = tokenAt s.tokens s.pos ∧ s' = { s with pos := s.pos + 1 } ∧ Sound s' := by
  have hlt := hs.lt_of_ne_eof hk
  rw [run_advance_of_lt hlt] at h
  cases h
  exact ⟨rfl, rfl, hs.moved rfl hlt⟩

/-- `expect` returns only on the kind it asks for, and moves past it. -/
theorem expect_moves {k : TokenKind} (hs : Sound s) (hk : k ≠ .eof) {t : Token}
    (h : (expect k).run s = .ok (t, s')) :
    (tokenAt s.tokens s.pos).kind = k ∧ t = tokenAt s.tokens s.pos ∧
      s' = { s with pos := s.pos + 1 } ∧ Sound s' := by
  unfold expect at h
  rw [run_bind_ok (run_current s)] at h
  split at h
  · rename_i hc
    exact ⟨hc, advance_moves hs (hc ▸ hk) h⟩
  · cases h

/-- `eat` moves past a token of its kind and stays on any other. -/
theorem eat_moves {k : TokenKind} (hs : Sound s) (hk : k ≠ .eof) {b : Bool}
    (h : (eat k).run s = .ok (b, s')) :
    (b = true ∧ (tokenAt s.tokens s.pos).kind = k ∧ s' = { s with pos := s.pos + 1 } ∧
      Sound s') ∨ (b = false ∧ (tokenAt s.tokens s.pos).kind ≠ k ∧ s' = s) := by
  unfold eat at h
  rw [run_bind_ok (run_current s)] at h
  split at h
  · rename_i hc
    obtain ⟨t, s1, hadv, hp⟩ := run_bind_eq_ok h
    obtain ⟨-, rfl, hs1⟩ := advance_moves hs (hc ▸ hk) hadv
    obtain ⟨rfl, rfl⟩ := run_pure_eq_ok hp
    exact .inl ⟨rfl, hc, rfl, hs1⟩
  · rename_i hc
    obtain ⟨rfl, rfl⟩ := run_pure_eq_ok h
    exact .inr ⟨rfl, hc, rfl⟩

/-- Reading with more generic names in scope moves as the reading does. -/
theorem withGenerics_runs {α : Type} {names : List String} {r : Reader α} {a : α}
    (h : (withGenerics names r).run s = .ok (a, s')) :
    ∃ s'', r.run { s with generics := s.generics ++ names } = .ok (a, s'') ∧
      s' = { s'' with generics := s.generics } := by
  unfold withGenerics at h
  obtain ⟨s0, s1, hget, h⟩ := run_bind_eq_ok h
  obtain ⟨rfl, rfl⟩ := run_get_eq_ok hget
  obtain ⟨u, s2, hmod, h⟩ := run_bind_eq_ok h
  cases hmod
  obtain ⟨x, s3, hr, h⟩ := run_bind_eq_ok h
  obtain ⟨u', s4, hmod', h⟩ := run_bind_eq_ok h
  cases hmod'
  obtain ⟨rfl, rfl⟩ := run_pure_eq_ok h
  exact ⟨s3, hr, rfl⟩

/-- Reading fails at a token the grammar does not allow. -/
theorem unexpected_ne_ok {α : Type} {a : α} : (unexpected : Reader α).run s ≠ .ok (a, s') := by
  intro h
  unfold unexpected at h
  rw [run_bind_ok (run_current s)] at h
  cases h

theorem outOfFuel_ne_ok {α : Type} {a : α} : (outOfFuel : Reader α).run s ≠ .ok (a, s') := by
  intro h
  unfold outOfFuel at h
  rw [run_bind_ok (run_current s)] at h
  cases h

end Moves

/-! ## Runs of tokens whose parentheses balance -/

/-- Tokens whose parentheses balance. -/
inductive Balanced : List Token → Prop
  /-- No token. -/
  | nil : Balanced []
  /-- One token that is no parenthesis. -/
  | atom {t : Token} : t.kind ≠ .openParen → t.kind ≠ .closeParen → Balanced [t]
  /-- Two balanced runs, one after the other. -/
  | append {a b : List Token} : Balanced a → Balanced b → Balanced (a ++ b)
  /-- A balanced run in parentheses. -/
  | group {o c : Token} {a : List Token} : o.kind = .openParen → c.kind = .closeParen →
      Balanced a → Balanced (o :: a ++ [c])

theorem Balanced.single {t : Token} {k : TokenKind} (ht : t.kind = k) (ho : k ≠ .openParen)
    (hc : k ≠ .closeParen) : Balanced [t] :=
  .atom (ht ▸ ho) (ht ▸ hc)

/-! ## The scan over balanced runs -/

section Scan

variable {t : Token} {d : Int} {first : Bool} {acc : List String}

/-- Inside parentheses the scan passes over a token that is no parenthesis: the depth stays,
no name is taken, and no name may come next. -/
theorem peekStep_inside (hd : 0 < d) (ho : t.kind ≠ .openParen) (hc : t.kind ≠ .closeParen) :
    peekStep t d first acc = some (d, false, acc) := by
  have hd' : d ≠ 0 := by omega
  unfold peekStep
  split <;> simp_all

theorem peekStep_open (ht : t.kind = .openParen) :
    peekStep t d first acc = some (d + 1, false, acc) := by
  simp [peekStep, ht]

theorem peekStep_close (ht : t.kind = .closeParen) :
    peekStep t d first acc = some (d - 1, false, acc) := by
  simp [peekStep, ht]

/-- At the top level the scan takes a name that may come. -/
theorem peekStep_name (ht : t.kind = .identifier) :
    peekStep t 0 true acc = some (0, false, t.value :: acc) := by
  simp [peekStep, ht]

/-- A comma at the top level lets a name come next. -/
theorem peekStep_comma (ht : t.kind = .comma) :
    peekStep t 0 first acc = some (0, true, acc) := by
  simp [peekStep, ht]

/-- The closing brace at the top level ends the scan. -/
theorem peekStep_closeCurly (ht : t.kind = .closeCurly) : peekStep t 0 first acc = none := by
  simp [peekStep, ht]

/-- The scan moves past a token as its step says. -/
theorem peekNames_go_cons {ts : List Token} {d' : Int} {first' : Bool} {acc' : List String}
    (h : peekStep t d first acc = some (d', first', acc')) :
    peekNames.go (t :: ts) d first acc = peekNames.go ts d' first' acc' := by
  rw [peekNames.go, h]

/-- A group in parentheses whose inside the scan passes over at the depth within: from any
depth, the scan comes out at that depth, with no name taken and none allowed next. -/
theorem peekNames_go_group_of {o c : Token} {a : List Token} (ho : o.kind = .openParen)
    (hc : c.kind = .closeParen)
    (ha : ∀ rest acc, peekNames.go (a ++ rest) (d + 1) false acc =
      peekNames.go rest (d + 1) false acc) (rest : List Token) :
    peekNames.go (o :: a ++ c :: rest) d first acc = peekNames.go rest d false acc := by
  rw [List.cons_append, peekNames_go_cons (peekStep_open ho), ha,
    peekNames_go_cons (peekStep_close hc), Int.add_sub_cancel]

/-- **Inside parentheses the scan passes over a balanced run without taking a name.** -/
theorem peekNames_go_balanced {body : List Token} (h : Balanced body) :
    ∀ {d : Int}, 0 < d → ∀ rest acc,
      peekNames.go (body ++ rest) d false acc = peekNames.go rest d false acc := by
  induction h with
  | nil => intro d _ rest acc; rfl
  | atom ho hc =>
    intro d hd rest acc
    exact peekNames_go_cons (peekStep_inside hd ho hc)
  | append _ _ iha ihb =>
    intro d hd rest acc
    rw [List.append_assoc, iha hd, ihb hd]
  | group ho hc _ iha =>
    intro d hd rest acc
    rw [List.append_assoc, List.singleton_append]
    exact peekNames_go_group_of ho hc (iha (by omega)) rest

/-- From the top level, the scan passes over a balanced run in parentheses: no name is taken
and none may come next. -/
theorem peekNames_go_group {o c : Token} {a : List Token} (ho : o.kind = .openParen)
    (hc : c.kind = .closeParen) (ha : Balanced a) (rest : List Token) :
    peekNames.go (o :: a ++ c :: rest) 0 first acc = peekNames.go rest 0 false acc :=
  peekNames_go_group_of ho hc (peekNames_go_balanced ha (by omega)) rest

end Scan

/-! ## Readers that read balanced runs -/

/-- Every run of `r` from a sound state that returns ends in a sound state, having read a run
of tokens whose parentheses balance. -/
def Balances {α : Type} (r : Reader α) : Prop :=
  ∀ s, Sound s → ∀ a s', r.run s = .ok (a, s') →
    Sound s' ∧ ∃ body, Balanced body ∧ s.rest = body ++ s'.rest

namespace Balances

variable {α β γ : Type}

/-- A reader that leaves the state as it is reads nothing. -/
theorem of_keeps {r : Reader α} (h : ∀ s a s', r.run s = .ok (a, s') → s' = s) : Balances r := by
  intro s hs a s' hr
  obtain rfl := h s a s' hr
  exact ⟨hs, [], .nil, rfl⟩

theorem pure {a : α} : Balances (Pure.pure a : Reader α) :=
  of_keeps fun _ _ _ h => (run_pure_eq_ok h).2.symm

theorem throw {e : Located} : Balances (MonadExcept.throw e : Reader α) :=
  fun _ _ _ _ h => by cases h

theorem bind {m : Reader α} {f : α → Reader β} (hm : Balances m) (hf : ∀ a, Balances (f a)) :
    Balances (m >>= f) := by
  intro s hs b s'' h
  obtain ⟨a, s', hm', hf'⟩ := run_bind_eq_ok h
  obtain ⟨hs', b₁, hb₁, hr₁⟩ := hm s hs a s' hm'
  obtain ⟨hs'', b₂, hb₂, hr₂⟩ := hf a s' hs' b s'' hf'
  exact ⟨hs'', b₁ ++ b₂, hb₁.append hb₂, by rw [hr₁, hr₂, List.append_assoc]⟩

theorem throw_bind {e : Located} {f : α → Reader β} : Balances (MonadExcept.throw e >>= f) :=
  fun _ _ _ _ h => by cases h

theorem current : Balances current :=
  of_keeps fun s _ _ h => by
    rw [run_current] at h
    cases h
    rfl

theorem get : Balances (MonadState.get : Reader State) :=
  of_keeps fun _ _ _ h => (run_get_eq_ok h).2.symm

theorem unexpected : Balances (Parse.unexpected : Reader α) :=
  bind current fun _ => throw

theorem outOfFuel : Balances (Parse.outOfFuel : Reader α) :=
  bind current fun _ => throw

/-- Asking for a token that is no parenthesis reads it. -/
theorem expect {k : TokenKind} (hk : k ≠ .eof) (ho : k ≠ .openParen) (hc : k ≠ .closeParen) :
    Balances (Parse.expect k) := by
  intro s hs t s' h
  obtain ⟨hkind, -, rfl, hs'⟩ := expect_moves hs hk h
  exact ⟨hs', _, .single hkind ho hc, rest_eq_cons hs⟩

theorem eat {k : TokenKind} (hk : k ≠ .eof) (ho : k ≠ .openParen) (hc : k ≠ .closeParen) :
    Balances (Parse.eat k) := by
  intro s hs b s' h
  rcases eat_moves hs hk h with ⟨-, hkind, rfl, hs'⟩ | ⟨-, -, rfl⟩
  · exact ⟨hs', _, .single hkind ho hc, rest_eq_cons hs⟩
  · exact ⟨hs, [], .nil, rfl⟩

end Balances

section Lists

variable {β γ : Type} {item : Reader β}

/-- Items separated by commas up to a closing token read a balanced run and then the closing
token. -/
theorem delimited_closes (hitem : Balances item) {close : TokenKind} (hclose : close ≠ .eof) :
    ∀ (n : Nat) (acc : List β) (s : State), Sound s → ∀ xs s',
      (delimited item close n acc).run s = .ok (xs, s') →
      Sound s' ∧ ∃ body t, Balanced body ∧ t.kind = close ∧ s.rest = body ++ t :: s'.rest
  | 0, _, s, _, xs, s', h => by
    unfold delimited at h
    exact absurd h outOfFuel_ne_ok
  | n + 1, acc, s, hs, xs, s', h => by
    unfold delimited at h
    rw [run_bind_ok (run_current s)] at h
    split at h
    · -- the closing token comes at once
      rename_i hc
      obtain ⟨t, s1, hadv, hp⟩ := run_bind_eq_ok h
      obtain ⟨-, rfl, hs1⟩ := advance_moves hs (hc ▸ hclose) hadv
      obtain ⟨-, rfl⟩ := run_pure_eq_ok hp
      exact ⟨hs1, [], _, .nil, hc, rest_eq_cons hs⟩
    · obtain ⟨x, s1, hx, h1⟩ := run_bind_eq_ok h
      obtain ⟨hs1, b₁, hb₁, hr₁⟩ := hitem s hs x s1 hx
      obtain ⟨b, s2, heat, h2⟩ := run_bind_eq_ok h1
      rcases eat_moves hs1 (by decide) heat with ⟨rfl, hcomma, rfl, hs2⟩ | ⟨rfl, -, rfl⟩
      · -- a comma: the rest of the list is read the same way
        rw [if_pos rfl] at h2
        obtain ⟨hs', body, t, hb, ht, hr⟩ :=
          delimited_closes hitem hclose n (x :: acc) _ hs2 xs s' h2
        refine ⟨hs', b₁ ++ tokenAt s1.tokens s1.pos :: body, t,
          hb₁.append ((Balanced.single hcomma (by decide) (by decide)).append hb), ht, ?_⟩
        rw [hr₁, rest_eq_cons hs1, hr]
        simp
      · -- no comma: the closing token ends the list
        rw [if_neg Bool.false_ne_true] at h2
        obtain ⟨t, s3, hexp, hp⟩ := run_bind_eq_ok h2
        obtain ⟨hk, -, rfl, hs3⟩ := expect_moves hs1 hclose hexp
        obtain ⟨-, rfl⟩ := run_pure_eq_ok hp
        exact ⟨hs3, b₁, _, hb₁, hk, by rw [hr₁, rest_eq_cons hs1]⟩

/-- A list closed by a token that is no parenthesis is a balanced run. -/
theorem Balances.delimited (hitem : Balances item) {close : TokenKind} (hk : close ≠ .eof)
    (ho : close ≠ .openParen) (hc : close ≠ .closeParen) (n : Nat) (acc : List β) :
    Balances (Parse.delimited item close n acc) := by
  intro s hs xs s' h
  obtain ⟨hs', body, t, hb, ht, hr⟩ := delimited_closes hitem hk n acc s hs xs s' h
  exact ⟨hs', body ++ [t], hb.append (.single ht ho hc), by rw [hr]; simp⟩

/-- A list in parentheses, and a balanced reading after it, is a balanced run. -/
theorem Balances.paren (hitem : Balances item) (n : Nat) (acc : List β) {f : List β → Reader γ}
    (hf : ∀ xs, Balances (f xs)) :
    Balances (Parse.expect .openParen >>= fun _ => Parse.delimited item .closeParen n acc >>= f) := by
  intro s hs c s' h
  obtain ⟨t, s1, hexp, h⟩ := run_bind_eq_ok h
  obtain ⟨ho, -, rfl, hs1⟩ := expect_moves hs (by decide) hexp
  obtain ⟨xs, s2, hd, h⟩ := run_bind_eq_ok h
  obtain ⟨hs2, body, t', hb, ht', hr₂⟩ := delimited_closes hitem (by decide) n acc _ hs1 xs s2 hd
  obtain ⟨hs', b₃, hb₃, hr₃⟩ := hf xs s2 hs2 c s' h
  refine ⟨hs', (tokenAt s.tokens s.pos :: body ++ [t']) ++ b₃, (Balanced.group ho ht' hb).append hb₃,
    ?_⟩
  rw [rest_eq_cons hs, hr₂, hr₃]
  simp

end Lists

/-! ## Types read balanced runs -/

mutual

/-- **Every type reads a run of tokens whose parentheses balance.** -/
theorem typeExpr_balances : (fuel : Nat) → Balances (typeExpr fuel)
  | 0 => Balances.outOfFuel
  | fuel + 1 => by
    unfold typeExpr
    refine Balances.bind Balances.current fun _ => ?_
    split
    · exact namedType_balances fuel
    · exact fnType_balances fuel
    · exact Balances.unexpected

theorem namedType_balances : (fuel : Nat) → Balances (namedType fuel)
  | 0 => Balances.outOfFuel
  | fuel + 1 => by
    unfold namedType
    refine Balances.bind (Balances.expect (by decide) (by decide) (by decide)) fun _ =>
      Balances.bind Balances.get fun _ => ?_
    extract_lets jp
    -- arguments in angle brackets are balanced runs between two tokens that are no parentheses
    have hk : ∀ base, Balances (jp base) := fun _ => by
      refine Balances.bind (Balances.eat (by decide) (by decide) (by decide)) fun _ => ?_
      split
      · exact Balances.bind (Balances.delimited (typeExpr_balances fuel) (by decide) (by decide)
          (by decide) fuel []) fun _ => Balances.pure
      · exact Balances.pure
    split
    · exact Balances.bind Balances.pure hk
    · split
      · exact Balances.bind Balances.pure hk
      · exact Balances.throw_bind

theorem fnType_balances : (fuel : Nat) → Balances (fnType fuel)
  | 0 => Balances.outOfFuel
  | fuel + 1 => by
    unfold fnType
    refine Balances.bind (Balances.expect (by decide) (by decide) (by decide)) fun _ => ?_
    refine Balances.paren (typeExpr_balances fuel) fuel [] fun _ => ?_
    exact Balances.bind (Balances.expect (by decide) (by decide) (by decide)) fun _ =>
      Balances.bind (typeExpr_balances fuel) fun _ => Balances.pure

end

/-! ## Reading an enum's body -/

/-- An entry reads its name, then nothing or a balanced run in parentheses. -/
theorem ctorEntry_reads (fuel : Nat) {s s' : State} (hs : Sound s) {x : String × List Ty}
    (h : (ctorEntry fuel).run s = .ok (x, s')) :
    Sound s' ∧ (tokenAt s.tokens s.pos).kind = .identifier ∧
      (tokenAt s.tokens s.pos).value = x.1 ∧
      ({ s with pos := s.pos + 1 }.rest = s'.rest ∨
        ∃ o c a, o.kind = .openParen ∧ c.kind = .closeParen ∧ Balanced a ∧
          { s with pos := s.pos + 1 }.rest = o :: a ++ c :: s'.rest) := by
  unfold ctorEntry at h
  obtain ⟨t, s1, hexp, h1⟩ := run_bind_eq_ok h
  obtain ⟨hk, rfl, rfl, hs1⟩ := expect_moves hs (by decide) hexp
  obtain ⟨b, s2, heat, h2⟩ := run_bind_eq_ok h1
  dsimp only at h2
  rcases eat_moves hs1 (by decide) heat with ⟨rfl, ho, rfl, hs2⟩ | ⟨rfl, -, rfl⟩
  · -- parameters in parentheses: a balanced run closed by its parenthesis
    rw [if_pos rfl] at h2
    obtain ⟨ps, s3, hd, h3⟩ := run_bind_eq_ok h2
    obtain ⟨rfl, rfl⟩ := run_pure_eq_ok h3
    obtain ⟨hs3, a, c, ha, hc, hr⟩ :=
      delimited_closes (typeExpr_balances fuel) (by decide) fuel [] _ hs2 ps s3 hd
    exact ⟨hs3, hk, rfl, .inr ⟨tokenAt s.tokens (s.pos + 1), c, a, ho, hc, ha,
      (rest_eq_cons hs1).trans (by rw [hr]; rfl)⟩⟩
  · rw [if_neg Bool.false_ne_true] at h2
    obtain ⟨ps, s3, hp, h3⟩ := run_bind_eq_ok h2
    obtain ⟨rfl, rfl⟩ := run_pure_eq_ok hp
    obtain ⟨rfl, rfl⟩ := run_pure_eq_ok h3
    exact ⟨hs1, hk, rfl, .inl rfl⟩

/-- The scan stops where its step says so, with the names taken. -/
theorem peekNames_go_stop {t : Token} {ts : List Token} {d : Int} {first : Bool}
    {acc : List String} (h : peekStep t d first acc = none) :
    peekNames.go (t :: ts) d first acc = acc.reverse := by
  rw [peekNames.go, h]

/-- The scan takes an entry's name, where a name may come, and passes over its parameters;
after the entry no name may come before a comma. -/
theorem peekNames_go_entry (fuel : Nat) {s s' : State} (hs : Sound s) {x : String × List Ty}
    (h : (ctorEntry fuel).run s = .ok (x, s')) (acc : List String) :
    peekNames.go s.rest 0 true acc = peekNames.go s'.rest 0 false (x.1 :: acc) := by
  obtain ⟨-, hk, hv, hparams⟩ := ctorEntry_reads fuel hs h
  rw [rest_eq_cons hs, peekNames_go_cons (peekStep_name hk), hv]
  rcases hparams with hr | ⟨o, c, a, ho, hc, ha, hr⟩
  · rw [hr]
  · rw [hr, peekNames_go_group ho hc ha]

/-- **The scan finds the names of the entries, in order.** Where a name may come at the top
level of an enum's body, the scan takes the name of every entry that reading the rest of the
body returns, after the names of the entries `acc` read before. -/
theorem peekNames_go_entries (fuel : Nat) :
    ∀ (n : Nat) (acc : List (String × List Ty)) (s : State), Sound s → ∀ ctors s',
      (delimited (ctorEntry fuel) .closeCurly n acc).run s = .ok (ctors, s') →
      peekNames.go s.rest 0 true (acc.map (·.1)) = ctors.map (·.1)
  | 0, _, s, _, ctors, s', h => by
    unfold delimited at h
    exact absurd h outOfFuel_ne_ok
  | n + 1, acc, s, hs, ctors, s', h => by
    unfold delimited at h
    rw [run_bind_ok (run_current s)] at h
    split at h
    · -- the closing brace ends the body and the scan
      rename_i hc
      obtain ⟨t, s1, -, hp⟩ := run_bind_eq_ok h
      obtain ⟨rfl, -⟩ := run_pure_eq_ok hp
      rw [rest_eq_cons hs, peekNames_go_stop (peekStep_closeCurly hc), List.map_reverse]
    · obtain ⟨x, s1, hx, h1⟩ := run_bind_eq_ok h
      have hs1 := (ctorEntry_reads fuel hs hx).1
      rw [peekNames_go_entry fuel hs hx]
      obtain ⟨b, s2, heat, h2⟩ := run_bind_eq_ok h1
      rcases eat_moves hs1 (by decide) heat with ⟨rfl, hcomma, rfl, hs2⟩ | ⟨rfl, -, rfl⟩
      · -- a comma lets the next entry's name count
        rw [if_pos rfl] at h2
        rw [rest_eq_cons hs1, peekNames_go_cons (peekStep_comma hcomma)]
        exact peekNames_go_entries fuel n (x :: acc) _ hs2 ctors s' h2
      · rw [if_neg Bool.false_ne_true] at h2
        obtain ⟨t, s3, hexp, hp⟩ := run_bind_eq_ok h2
        obtain ⟨hc, -, -, -⟩ := expect_moves hs1 (by decide) hexp
        obtain ⟨rfl, -⟩ := run_pure_eq_ok hp
        rw [rest_eq_cons hs1, peekNames_go_stop (peekStep_closeCurly hc), List.map_reverse]
        rfl

/-! ## What an enum declares -/

section Keeps

variable {N : String → Prop} {G : List String} {D : Decls}

theorem genericParams_keeps (fuel : Nat) :
    Preserves (InScope N G D) (genericParams fuel) (fun _ => True) := by
  unfold genericParams
  refine Preserves.bind (inScope_eat _) fun _ _ => ?_
  split
  · have hname : Preserves (InScope N G D) (do pure (← expect .identifier).value : Reader String)
        (fun _ => True) :=
      Preserves.bind (inScope_expect _) fun _ _ => Preserves.pure trivial
    exact fun s a s' hs h => ⟨(inScope_delimited hname _ fuel [] nofun s a s' hs h).1, trivial⟩
  · exact Preserves.pure trivial

theorem ctorEntry_keeps (fuel : Nat) :
    Preserves (InScope N G D) (ctorEntry fuel) (fun _ => True) := by
  unfold ctorEntry
  refine Preserves.bind (inScope_expect _) fun _ _ => Preserves.bind (inScope_eat _) fun _ _ => ?_
  dsimp only
  split
  · exact Preserves.bind (inScope_delimited (typeExpr_denotes fuel) _ fuel [] (by simp))
      fun _ _ => Preserves.pure trivial
  · exact Preserves.bind (Q := fun _ => True) (Preserves.pure trivial) fun _ _ =>
      Preserves.pure trivial

end Keeps

/-- A loop whose rounds each bind one name in the root scope, and change no type name, binds
the names in the order of the loop. -/
theorem forIn_binds {γ : Type} (name : γ → String) (R : γ → Ty → Prop)
    {f : γ → PUnit → Reader (ForInStep PUnit)}
    (hf : ∀ x s r s', (f x PUnit.unit).run s = .ok (r, s') →
      r = .yield PUnit.unit ∧ s'.decls.types = s.decls.types ∧
        ∃ t, R x t ∧ s'.decls.env = (name x, t) :: s.decls.env) :
    ∀ (l : List γ) (s s' : State), (forIn l PUnit.unit f).run s = .ok (PUnit.unit, s') →
      s'.decls.types = s.decls.types ∧ ∃ added, s'.decls.env = added ++ s.decls.env ∧
        added.reverse.map (·.1) = l.map name ∧ ∀ b ∈ added, ∃ x, b.1 = name x ∧ R x b.2
  | [], s, s', h => by
    obtain ⟨-, rfl⟩ := run_pure_eq_ok h
    exact ⟨rfl, [], rfl, rfl, nofun⟩
  | x :: l, s, s', h => by
    rw [List.forIn_cons] at h
    obtain ⟨r, s1, hx, h1⟩ := run_bind_eq_ok h
    obtain ⟨rfl, htypes, t, hR, henv⟩ := hf x s r s1 hx
    obtain ⟨htypes', added, henv', hnames, hall⟩ := forIn_binds name R hf l s1 s' h1
    refine ⟨htypes'.trans htypes, added ++ [(name x, t)], ?_, ?_, ?_⟩
    · rw [henv', henv]
      simp
    · simp [hnames]
    · intro b hb
      rcases List.mem_append.1 hb with hb | hb
      · exact hall b hb
      · obtain rfl := List.mem_singleton.1 hb
        exact ⟨x, rfl, hR⟩

theorem run_freshId (s : State) :
    freshId.run s = .ok (s.decls.nextId, { s with decls := s.decls.fresh.2 }) := rfl

/-- One round of the loop that binds an enum's constructors: a fresh number, and the
constructor bound in the root scope. -/
theorem ctorRound_binds (ref : EnumRef) (gs : List String) (x : String × List Ty) {s s' : State}
    {r : ForInStep PUnit}
    (h : (do
        let i ← freshId
        declare (·.set x.1 (.ctor i x.1 x.2 (.enum ref) gs))
        pure (ForInStep.yield PUnit.unit) : Reader (ForInStep PUnit)).run s = .ok (r, s')) :
    r = .yield PUnit.unit ∧ s'.decls.types = s.decls.types ∧
      ∃ t, (∃ i, t = .ctor i x.1 x.2 (.enum ref) gs) ∧ s'.decls.env = (x.1, t) :: s.decls.env := by
  rw [run_bind_ok (run_freshId s)] at h
  obtain ⟨u, s1, hdecl, h1⟩ := run_bind_eq_ok h
  rw [run_declare] at hdecl
  cases hdecl
  obtain ⟨rfl, rfl⟩ := run_pure_eq_ok h1
  exact ⟨rfl, rfl, _, ⟨_, rfl⟩, rfl⟩

/-- **An enum records the names of the constructors it declares.** Reading an enum from any
sound state, whatever the parameter types of its entries, declares the enum under its name and
binds in the root scope one constructor of it per entry, newest first; the constructor names
that the enum records before reading its body are the names of these bindings, in the order of
the entries and with repetitions. -/
theorem enumDecl_peeks_constructors (fuel : Nat) {s s' : State} {nodes : List Node}
    (hs : Sound s) (h : (enumDecl fuel).run s = .ok (nodes, s')) :
    ∃ (ref : EnumRef) (added : List (String × Ty)),
      s'.decls.types = (ref.name, .enum ref) :: s.decls.types ∧
      s'.decls.env = added ++ s.decls.env ∧
      ref.ctors = added.reverse.map (·.1) ∧
      ∀ b ∈ added, ∃ id ps, b.2 = .ctor id b.1 ps (.enum ref) ref.generics := by
  unfold enumDecl at h
  -- the keyword, the name, the generic names and the opening brace change no declaration
  obtain ⟨t0, s1, hadv, h1⟩ := run_bind_eq_ok h
  have hs1 := hs.of_runs (steps_advance s hs) hadv
  obtain ⟨t1, s2, hname, h2⟩ := run_bind_eq_ok h1
  have hs2 := hs1.of_runs (steps_expect (by decide) s1 hs1) hname
  obtain ⟨gs, s3, hgen, h3⟩ := run_bind_eq_ok h2
  have hs3 := hs2.of_runs (genericParams_steps fuel s2 hs2) hgen
  have hd3 : s3.decls = s2.decls :=
    (genericParams_keeps (N := fun _ => True) fuel s2 gs s3 ⟨rfl, rfl, fun _ _ => trivial⟩
      hgen).1.decls
  obtain ⟨t3, s4, hopen, h4⟩ := run_bind_eq_ok h3
  obtain ⟨-, -, hs4eq, hs4⟩ := expect_moves hs3 (by decide) hopen
  have hd4 : s4.decls = s.decls := by
    rw [hs4eq]
    exact hd3.trans ((expect_decls hname).trans (advance_decls hadv))
  -- the scan of the body, a fresh number, and the enum declared under its name
  obtain ⟨s5, s6, hget, h6⟩ := run_bind_eq_ok h4
  obtain ⟨rfl, rfl⟩ := run_get_eq_ok hget
  obtain ⟨i, s7, hfresh, h7⟩ := run_bind_eq_ok h6
  obtain ⟨rfl, hs7⟩ := Prod.mk.inj (Except.ok.inj ((run_freshId s4).symm.trans hfresh))
  dsimp only at h7
  obtain ⟨u, s8, hdecl, h8⟩ := run_bind_eq_ok h7
  have hs8 := (Prod.mk.inj (Except.ok.inj ((run_declare _ s7).symm.trans hdecl))).2
  -- the body, read with the enum's generic names in scope, declares nothing
  obtain ⟨ctors, s9, hwith, h9⟩ := run_bind_eq_ok h8
  obtain ⟨s9', hdelim, hs9⟩ := withGenerics_runs hwith
  have hsound : Sound { s8 with generics := s8.generics ++ gs } := by
    subst hs8 hs7
    exact hs4.moved rfl hs4.pos_lt
  have hd9 : s9'.decls = s8.decls :=
    (inScope_delimited (N := fun _ => True) (ctorEntry_keeps fuel) _ fuel [] nofun _ ctors s9'
      ⟨rfl, rfl, fun _ _ => trivial⟩ hdelim).1.decls
  have hpeek : peekNamesAt s4.tokens s4.pos = ctors.map (·.1) := by
    rw [peekNamesAt_eq, ← peekNames_go_entries fuel fuel [] _ hsound ctors s9' hdelim]
    subst hs8 hs7
    rfl
  -- each entry's constructor is bound in the root scope
  obtain ⟨u2, s10, hloop, h10⟩ := run_bind_eq_ok h9
  obtain ⟨-, rfl⟩ := run_pure_eq_ok h10
  obtain ⟨htypes, added, henv, hnames, hall⟩ := forIn_binds Prod.fst
    (fun x t => ∃ i, t = .ctor i x.1 x.2 (.enum ⟨s4.decls.nextId, t1.value, gs,
      peekNamesAt s4.tokens s4.pos⟩) gs)
    (fun x _ _ _ hr => ctorRound_binds _ gs x hr) ctors _ _ hloop
  have hd8 : s9.decls = (s4.decls.fresh.2).setType t1.value
      (.enum ⟨s4.decls.nextId, t1.value, gs, peekNamesAt s4.tokens s4.pos⟩) := by
    rw [hs9]
    subst hs8 hs7
    exact hd9
  refine ⟨⟨s4.decls.nextId, t1.value, gs, peekNamesAt s4.tokens s4.pos⟩, added, ?_, ?_, ?_, ?_⟩
  · rw [htypes, hd8]
    simp [Decls.setType, Decls.fresh, hd4]
  · rw [henv, hd8]
    simp [Decls.setType, Decls.fresh, hd4]
  · rw [hpeek, hnames]
  · intro b hb
    obtain ⟨x, hx, i, hi⟩ := hall b hb
    exact ⟨i, x.2, by rw [hi, hx]⟩

/-- The tokens of `enum Pair<T> { Both(fn(T, Int): T, List<T>), Neither, }`: parameters with
a function type and an application, and a comma before the closing brace. -/
def pairTokens : Array Token :=
  match Token.scan "enum Pair<T> \x7b Both(fn(T, Int): T, List<T>), Neither, \x7d" with
  | .ok ts => ts
  | .error _ => #[]

theorem enumDecl_peeks_constructors_pair :
    Sound ⟨pairTokens, 0, Decls.initial, []⟩ ∧
    ∃ nodes s', (enumDecl 30).run ⟨pairTokens, 0, Decls.initial, []⟩ = .ok (nodes, s') ∧
      ∃ (ref : EnumRef) (added : List (String × Ty)),
        s'.decls.types = (ref.name, .enum ref) :: Decls.initial.types ∧
        s'.decls.env = added ++ Decls.initial.env ∧
        ref.ctors = added.reverse.map (·.1) ∧
        ∀ b ∈ added, ∃ id ps, b.2 = .ctor id b.1 ps (.enum ref) ref.generics := by
  have hs : Sound ⟨pairTokens, 0, Decls.initial, []⟩ := ⟨by decide +kernel, by decide +kernel⟩
  have hok : ((enumDecl 30).run ⟨pairTokens, 0, Decls.initial, []⟩).isOk = true := by
    decide +kernel
  refine ⟨hs, ?_⟩
  match h : (enumDecl 30).run ⟨pairTokens, 0, Decls.initial, []⟩, hok with
  | .ok (nodes, s'), _ => exact ⟨nodes, s', rfl, enumDecl_peeks_constructors 30 hs h⟩

/-- The scan after the opening brace finds both names, and none of the names inside the
parameters. -/
example : peekNamesAt pairTokens 6 = ["Both", "Neither"] := by decide +kernel

end Parse
end Verve
