import Verve.Proofs.Progress

/-!
# Reading never runs out of fuel

Every reader of the grammar takes a fuel argument and fails with `outOfFuel` when it is used
up; reading a program gives `fuelFor` of its tokens. That fault never comes out of reading a
program (`Parse.program_unspent`), and reading with more fuel gives the same result
(`Parse.programWith_eq_program`): the fuel only bounds a recursion that ends on its own, and
reading a program terminates, with a program or with a fault of the grammar.

The argument weighs a state by the tokens it has left, eight units of fuel each
(`Parse.weight`). `Parse.Within b r₁ r₂` says that two readers give the same result from every
sound state of weight at most `b`, and that the first does not run out of fuel there; the steps
of the cursor never do (`Parse.Tame`). Each reader `R` has an offset `d`, and reading with `n` and
with `n + 1` agrees within `n - d`: a call the reader makes before it consumes anything is to
a reader of smaller offset, and after a token is consumed (`Parse.Steps`) the weight has
dropped by eight, more than any offset. The offsets are 0 for the declarations and the
readers of a type's parts, 1 for a type, a constructor, the arguments, a block and the readers
that begin by consuming their first token, 2 for a literal or name, a call, further
assignments and match cases, 3 for the start and the extension of an expression, 4 for an
expression, 5 for an item and 6 for the item loops.

The readers that begin with `advance` consume only when the current token is not the end
mark, which their callers have checked (`Parse.WithinAt`).
-/

namespace Verve
namespace Parse

/-- What reading on from a state may cost: eight units of fuel for each token left. -/
def weight (s : State) : Nat := 8 * (s.tokens.size - s.pos)

/-- A result that is no reader running out of fuel. -/
def Unspent {α : Type} (r : Except Located α) : Prop :=
  ∀ pos, r ≠ .error ⟨.outOfFuel, pos⟩

/-- A value is no running out of fuel. -/
theorem unspent_ok {α : Type} (a : α) : Unspent (.ok a : Except Located α) :=
  fun _ h => nomatch h

/-- A fault of another kind is no running out of fuel. -/
theorem unspent_error {α : Type} {e : Located} (he : e.fault ≠ .outOfFuel) :
    Unspent (.error e : Except Located α) :=
  fun _ h => he (congrArg Located.fault (Except.error.inj h))

/-- A fault is no running out of fuel whatever result type it stands in. -/
theorem Unspent.cast {α β : Type} {e : Located} (h : Unspent (.error e : Except Located α)) :
    Unspent (.error e : Except Located β) :=
  fun p hp => h p (by rw [Except.error.inj hp])

/-- A reader that never runs out of fuel, from any state: one that calls no reader with fuel.
Instances cover the steps of the cursor and the ways of putting readers together, so that a
reader built from them is known to be one by instance search. -/
class Tame {α : Type} (r : Reader α) : Prop where
  unspent : ∀ s, Unspent (r.run s)

/-- Two readers give the same result from every sound state of weight at most `b`, and the
first does not run out of fuel there. -/
def Within {α : Type} (b : Nat) (r₁ r₂ : Reader α) : Prop :=
  ∀ s, Sound s → weight s ≤ b → r₁.run s = r₂.run s ∧ Unspent (r₁.run s)

/-- As `Within`, from the sound states whose current token is of kind `k`. -/
def WithinAt {α : Type} (k : TokenKind) (b : Nat) (r₁ r₂ : Reader α) : Prop :=
  ∀ s, Sound s → (tokenAt s.tokens s.pos).kind = k → weight s ≤ b →
    r₁.run s = r₂.run s ∧ Unspent (r₁.run s)

/-- A sound state has a token left. -/
theorem Sound.weight_ge {s : State} (hs : Sound s) : 8 ≤ weight s := by
  have := hs.pos_lt
  unfold weight
  omega

/-- A run that consumes `c` tokens takes `8 c` off the weight. -/
theorem Runs.weight_le {α : Type} {c : Nat} {r : Reader α} {s s' : State} {a : α}
    (hr : Runs c r s) (h : r.run s = .ok (a, s')) : weight s' + 8 * c ≤ weight s := by
  obtain ⟨ht, hp, hl⟩ := hr a s' h
  unfold weight
  rw [ht]
  omega

/-- Two binds agree, and the first does not run out of fuel, where their first readers do so
and their continuations do so on what the first readers return. -/
theorem run_bind_agree {α β : Type} {x₁ x₂ : Reader α} {f₁ f₂ : α → Reader β} {s : State}
    (hx : x₁.run s = x₂.run s ∧ Unspent (x₁.run s))
    (hf : ∀ a s', x₁.run s = .ok (a, s') →
      (f₁ a).run s' = (f₂ a).run s' ∧ Unspent ((f₁ a).run s')) :
    (x₁ >>= f₁).run s = (x₂ >>= f₂).run s ∧ Unspent ((x₁ >>= f₁).run s) := by
  rw [StateT.run_bind, StateT.run_bind, ← hx.1]
  rcases h : x₁.run s with e | ⟨a, s'⟩
  · rw [h] at hx
    exact ⟨rfl, hx.2.cast⟩
  · exact hf a s' h

/-- A reader mapped agrees where the reader does, and runs out of fuel only where it does. -/
theorem run_map_agree {α β : Type} {x₁ x₂ : Reader α} {f : α → β} {s : State}
    (hx : x₁.run s = x₂.run s ∧ Unspent (x₁.run s)) :
    (f <$> x₁).run s = (f <$> x₂).run s ∧ Unspent ((f <$> x₁).run s) := by
  rw [StateT.run_map, StateT.run_map, ← hx.1]
  rcases h : x₁.run s with e | ⟨a, s'⟩
  · rw [h] at hx
    exact ⟨rfl, hx.2.cast⟩
  · exact ⟨rfl, unspent_ok _⟩

namespace Tame

variable {α β : Type}

instance pure {a : α} : Tame (Pure.pure a : Reader α) := ⟨fun _ => unspent_ok _⟩

instance bind {x : Reader α} {f : α → Reader β} [hx : Tame x] [hf : ∀ a, Tame (f a)] :
    Tame (x >>= f) := by
  refine ⟨fun s => ?_⟩
  rw [StateT.run_bind]
  rcases h : x.run s with e | ⟨a, s'⟩
  · have := hx.unspent s
    rw [h] at this
    exact this.cast
  · exact (hf a).unspent s'

instance map {x : Reader α} {f : α → β} [hx : Tame x] : Tame (f <$> x) := by
  refine ⟨fun s => ?_⟩
  rw [StateT.run_map]
  rcases h : x.run s with e | ⟨a, s'⟩
  · have := hx.unspent s
    rw [h] at this
    exact this.cast
  · exact unspent_ok _

instance ite {c : Prop} [Decidable c] {r₁ r₂ : Reader α} [h₁ : Tame r₁] [h₂ : Tame r₂] :
    Tame (if c then r₁ else r₂) := by
  split
  · exact h₁
  · exact h₂

instance get : Tame (MonadState.get : Reader State) := ⟨fun _ => unspent_ok _⟩

instance modify {f : State → State} : Tame (modify f : Reader Unit) := ⟨fun _ => unspent_ok _⟩

instance current : Tame current := ⟨fun _ => unspent_ok _⟩

instance advance : Tame advance := bind

instance position : Tame position := bind

instance spanFrom {n : Nat} : Tame (spanFrom n) := bind

instance declare {f : Decls → Decls} : Tame (declare f) := modify

instance freshId : Tame freshId := ⟨fun _ => unspent_ok _⟩

instance unexpected : Tame (unexpected : Reader α) :=
  ⟨fun _ => unspent_error (by simp)⟩

/-- A fault other than running out of fuel. -/
theorem throw {e : Located} (he : e.fault ≠ .outOfFuel) : Tame (MonadExcept.throw e : Reader α) :=
  ⟨fun _ => unspent_error he⟩

instance expect {k : TokenKind} : Tame (expect k) := by
  unfold Parse.expect
  refine @Tame.bind _ _ _ _ Tame.current fun _ => ?_
  split
  · exact Tame.advance
  · exact Tame.throw (by simp)

instance eat {k : TokenKind} : Tame (eat k) := bind

/-- A loop over a list whose every round runs out of fuel nowhere. -/
instance forIn {γ δ : Type} {l : List γ} {init : δ} {f : γ → δ → Reader (ForInStep δ)}
    [hf : ∀ a d, Tame (f a d)] : Tame (ForIn.forIn l init f) := by
  induction l generalizing init with
  | nil =>
    rw [List.forIn_nil]
    exact pure
  | cons a l ih =>
    rw [List.forIn_cons]
    refine @bind _ _ _ _ (hf a init) fun step => ?_
    cases step with
    | done d => exact pure
    | yield d => exact ih

instance binding : Tame binding := bind

end Tame

namespace Within

variable {α β : Type} {b b' : Nat}

/-- A reader that never runs out of fuel agrees with itself on every budget. -/
theorem refl {r : Reader α} [h : Tame r] : Within b r r := fun s _ _ => ⟨rfl, h.unspent s⟩

/-- Readers that agree on a budget agree on a smaller one. -/
theorem mono {r₁ r₂ : Reader α} (h : Within b r₁ r₂) (hb : b' ≤ b) : Within b' r₁ r₂ :=
  fun s hs hw => h s hs (Nat.le_trans hw hb)

/-- No sound state weighs less than eight. -/
theorem vacuous {r₁ r₂ : Reader α} (hb : b < 8) : Within b r₁ r₂ :=
  fun _ hs hw => absurd (Nat.lt_of_le_of_lt hw hb) (Nat.not_lt.2 hs.weight_ge)

/-- Agreement after a first reader that moves on the same budget. -/
theorem bind {x₁ x₂ : Reader α} {f₁ f₂ : α → Reader β} (hx : Within b x₁ x₂) (hs : Steps 0 x₁)
    (hf : ∀ a, Within b (f₁ a) (f₂ a)) : Within b (x₁ >>= f₁) (x₂ >>= f₂) := by
  intro s hs' hw
  refine run_bind_agree (hx s hs' hw) fun a s' h => hf a s' (hs'.of_runs (hs s hs') h) ?_
  have := (hs s hs').weight_le h
  omega

/-- After a first reader that consumes a token, the rest needs eight less. -/
theorem bind_consumes {x₁ x₂ : Reader α} {f₁ f₂ : α → Reader β} (hx : Within b x₁ x₂)
    (hs : Steps 1 x₁) (hf : ∀ a, Within (b - 8) (f₁ a) (f₂ a)) :
    Within b (x₁ >>= f₁) (x₂ >>= f₂) := by
  intro s hs' hw
  refine run_bind_agree (hx s hs' hw) fun a s' h => hf a s' (hs'.of_runs (hs s hs') h) ?_
  have := (hs s hs').weight_le h
  omega

/-- The same continuation, one that runs out of fuel nowhere, after two readers that agree. -/
theorem bind_same {x₁ x₂ : Reader α} {f : α → Reader β} [hf : ∀ a, Tame (f a)]
    (hx : Within b x₁ x₂) : Within b (x₁ >>= f) (x₂ >>= f) :=
  fun s hs hw => run_bind_agree (hx s hs hw) fun a s' _ => ⟨rfl, (hf a).unspent s'⟩

/-- A fault other than running out of fuel, and what would follow it. -/
theorem throw_bind {e : Located} {f₁ f₂ : α → Reader β} (he : e.fault ≠ .outOfFuel) :
    Within b (MonadExcept.throw e >>= f₁) (MonadExcept.throw e >>= f₂) :=
  fun _ _ _ => ⟨rfl, unspent_error he⟩

/-- A fault other than running out of fuel. -/
theorem throw {e : Located} (he : e.fault ≠ .outOfFuel) :
    Within b (MonadExcept.throw e : Reader α) (MonadExcept.throw e) :=
  fun _ _ _ => ⟨rfl, unspent_error he⟩

/-- Mapping over the values of readers that agree keeps them agreeing. -/
theorem map {x₁ x₂ : Reader α} {f : α → β} (hx : Within b x₁ x₂) :
    Within b (f <$> x₁) (f <$> x₂) :=
  fun s hs hw => run_map_agree (hx s hs hw)

/-- Readers that agree from every state agree from those with a given current token. -/
theorem toAt {r₁ r₂ : Reader α} {k : TokenKind} (h : Within b r₁ r₂) : WithinAt k b r₁ r₂ :=
  fun s hs _ hw => h s hs hw

/-- Looking at the current token first, the rest may use what it is. -/
theorem current_bind {f₁ f₂ : Token → Reader α} (h : ∀ t, WithinAt t.kind b (f₁ t) (f₂ t)) :
    Within b (current >>= f₁) (current >>= f₂) :=
  fun s hs hw => h (tokenAt s.tokens s.pos) s hs rfl hw

end Within

namespace WithinAt

variable {α β : Type} {k : TokenKind} {b b' : Nat}

/-- Readers that agree on a budget agree on a smaller one. -/
theorem mono {r₁ r₂ : Reader α} (h : WithinAt k b r₁ r₂) (hb : b' ≤ b) : WithinAt k b' r₁ r₂ :=
  fun s hs hk hw => h s hs hk (Nat.le_trans hw hb)

/-- After a first reader that consumes a token of kind `k`, the rest needs eight less. -/
theorem bind_consumes {x₁ x₂ : Reader α} {f₁ f₂ : α → Reader β} (hx : WithinAt k b x₁ x₂)
    (hs : StepsAt k 1 x₁) (hf : ∀ a, Within (b - 8) (f₁ a) (f₂ a)) :
    WithinAt k b (x₁ >>= f₁) (x₂ >>= f₂) := by
  intro s hs' hk hw
  refine run_bind_agree (hx s hs' hk hw) fun a s' h =>
    hf a s' (hs'.of_runs (hs s hs' hk) h) ?_
  have := (hs s hs' hk).weight_le h
  omega

/-- Agreement after a first reader that moves on the same budget. -/
theorem bind {x₁ x₂ : Reader α} {f₁ f₂ : α → Reader β} (hx : WithinAt k b x₁ x₂)
    (hs : Steps 0 x₁) (hf : ∀ a, Within b (f₁ a) (f₂ a)) : WithinAt k b (x₁ >>= f₁) (x₂ >>= f₂) := by
  intro s hs' hk hw
  refine run_bind_agree (hx s hs' hk hw) fun a s' h => hf a s' (hs'.of_runs (hs s hs') h) ?_
  have := (hs s hs').weight_le h
  omega

/-- Mapping over the values of readers that agree keeps them agreeing. -/
theorem map {x₁ x₂ : Reader α} {f : α → β} (hx : WithinAt k b x₁ x₂) :
    WithinAt k b (f <$> x₁) (f <$> x₂) :=
  fun s hs hk hw => run_map_agree (hx s hs hk hw)

end WithinAt

/-- A reader that begins by consuming its first token, when that is not the end mark. -/
theorem withinAt_advance_bind {α : Type} {k : TokenKind} {b : Nat} {f₁ f₂ : Token → Reader α}
    (hk : k ≠ .eof) (hf : ∀ t, Within (b - 8) (f₁ t) (f₂ t)) :
    WithinAt k b (advance >>= f₁) (advance >>= f₂) :=
  WithinAt.bind_consumes (Within.toAt Within.refl) (stepsAt_advance hk) hf

section Primitives

/-- A list up to a closing token, read with a loop fuel at least the budget, agrees with one
more unit of loop fuel when its items do. -/
theorem within_delimited {β : Type} {item₁ item₂ : Reader β} (hs : Steps 1 item₁)
    (close : TokenKind) : (n : Nat) → (b : Nat) → (acc : List β) → b ≤ n →
    Within b item₁ item₂ →
    Within b (delimited item₁ close n acc) (delimited item₂ close (n + 1) acc)
  | 0, _, _, hb, _ => Within.vacuous (by omega)
  | n + 1, b, acc, hb, hi => by
    unfold delimited
    refine Within.bind Within.refl steps_current fun _ => ?_
    split
    · exact Within.refl
    · refine Within.bind_consumes hi hs fun x => Within.bind Within.refl (steps_eat _) fun _ => ?_
      split
      · exact within_delimited hs close n (b - 8) (x :: acc) (by omega) (hi.mono (Nat.sub_le _ _))
      · exact Within.refl

/-- Reading with more generic names in scope keeps two readers agreeing. -/
theorem within_withGenerics {α : Type} {b : Nat} (names : List String) {r₁ r₂ : Reader α}
    (h : Within b r₁ r₂) : Within b (withGenerics names r₁) (withGenerics names r₂) :=
  Within.bind Within.refl Steps.get fun _ =>
    Within.bind Within.refl (Steps.modify fun _ => ⟨rfl, rfl⟩) fun _ => Within.bind_same h

end Primitives

section Declarations

mutual

/-- **A type expression read with one more unit of fuel gives the same result**, from every sound
state of weight at most `n - 1`, and does not run out of fuel there. -/
theorem typeExpr_stable : (n : Nat) → Within (n - 1) (typeExpr n) (typeExpr (n + 1))
  | 0 => Within.vacuous (by omega)
  | n + 1 => by
    unfold typeExpr
    refine Within.current_bind fun _ => ?_
    split
    · exact Within.toAt ((namedType_stable n).mono (by omega))
    · exact Within.toAt ((fnType_stable n).mono (by omega))
    · exact Within.toAt Within.refl

/-- A named type read with one more unit of fuel gives the same result, within weight `n`. -/
theorem namedType_stable : (n : Nat) → Within n (namedType n) (namedType (n + 1))
  | 0 => Within.vacuous (by omega)
  | n + 1 => by
    unfold namedType
    refine Within.bind_consumes Within.refl (steps_expect (by decide)) fun _ =>
      Within.bind Within.refl Steps.get fun _ => ?_
    extract_lets jp₁ jp₂
    -- the arguments in angle brackets are the only part that reads with fuel
    have hk : ∀ base, Within (n + 1 - 8) (jp₁ base) (jp₂ base) := fun _ => by
      refine Within.bind Within.refl (steps_eat _) fun _ => ?_
      split
      · exact Within.bind_same (within_delimited (typeExpr_steps n) _ n _ [] (by omega)
          ((typeExpr_stable n).mono (by omega)))
      · exact Within.refl
    split
    · exact Within.bind Within.refl Steps.pure hk
    · split
      · exact Within.bind Within.refl Steps.pure hk
      · exact Within.throw_bind (by simp)

/-- A function type read with one more unit of fuel gives the same result, within weight `n`. -/
theorem fnType_stable : (n : Nat) → Within n (fnType n) (fnType (n + 1))
  | 0 => Within.vacuous (by omega)
  | n + 1 => by
    unfold fnType
    refine Within.bind_consumes Within.refl (steps_expect (by decide)) fun _ =>
      Within.bind Within.refl (steps_expect (by decide)).moves fun _ => ?_
    refine Within.bind (within_delimited (typeExpr_steps n) _ n _ [] (by omega)
      ((typeExpr_stable n).mono (by omega)))
      (steps_delimited (typeExpr_steps n) (by decide) n []).moves fun _ => ?_
    exact Within.bind Within.refl (steps_expect (by decide)).moves fun _ =>
      Within.bind_same ((typeExpr_stable n).mono (by omega))

end

/-- Generic names read with one more unit of fuel give the same result, within weight `n`. -/
theorem genericParams_stable (n : Nat) : Within n (genericParams n) (genericParams (n + 1)) := by
  unfold genericParams
  refine Within.bind Within.refl (steps_eat _) fun _ => ?_
  split
  · exact within_delimited (Steps.bind_left (steps_expect (by decide)) fun _ => Steps.pure) _ n n
      [] (Nat.le_refl _) Within.refl
  · exact Within.refl

/-- A typed parameter read with one more unit of fuel gives the same result, within weight `n`. -/
theorem typedParam_stable (n : Nat) : Within n (typedParam n) (typedParam (n + 1)) :=
  Within.bind_consumes Within.refl (steps_expect (by decide)) fun _ =>
    Within.bind Within.refl (steps_expect (by decide)).moves fun _ =>
      Within.bind_same ((typeExpr_stable n).mono (by omega))

/-- A signature read with one more unit of fuel gives the same result, within weight `n`. -/
theorem signature_stable (n : Nat) : Within n (signature n) (signature (n + 1)) := by
  unfold signature
  refine Within.bind Within.refl steps_current fun _ => ?_
  split
  · exact Within.throw_bind (by simp)
  refine Within.bind Within.refl steps_advance fun _ =>
    Within.bind (genericParams_stable n) (genericParams_steps n) fun _ => ?_
  refine within_withGenerics _ (Within.bind_consumes Within.refl (steps_expect (by decide)) fun _ => ?_)
  refine Within.bind (within_delimited (typedParam_steps n) _ n _ [] (by omega)
    ((typedParam_stable n).mono (by omega)))
    (steps_delimited (typedParam_steps n) (by decide) n []).moves fun _ => ?_
  exact Within.bind Within.refl (steps_expect (by decide)).moves fun _ =>
    Within.bind_same ((typeExpr_stable n).mono (by omega))

/-- An extern declaration read with one more unit of fuel gives the same result, within weight `n`.
-/
theorem externDecl_stable (n : Nat) : Within n (externDecl n) (externDecl (n + 1)) :=
  Within.bind Within.refl steps_advance fun _ =>
    Within.bind Within.refl (steps_expect (by decide)).moves fun _ =>
      Within.bind_same (signature_stable n)

/-- The prototypes of an interface, read with a loop fuel at least the budget. -/
theorem within_prototypes (fuel : Nat) : (m : Nat) → (b : Nat) → (acc : List Sig) → b ≤ m →
    b ≤ fuel → Within b (prototypes fuel m acc) (prototypes (fuel + 1) (m + 1) acc)
  | 0, _, _, hb, _ => Within.vacuous (by omega)
  | m + 1, b, acc, hb, hf => by
    unfold prototypes
    refine Within.bind Within.refl steps_current fun _ => ?_
    split
    · exact Within.refl
    · refine Within.bind_consumes Within.refl (steps_expect (by decide)) fun _ => ?_
      refine Within.bind ((signature_stable fuel).mono (by omega)) (signature_steps fuel).moves
        fun _ => ?_
      exact Within.bind Within.refl (steps_eat _) fun _ =>
        within_prototypes fuel m (b - 8) _ (by omega) (by omega)

/-- An interface declaration read with one more unit of fuel gives the same result, within weight
`n`. -/
theorem interfaceDecl_stable (n : Nat) : Within n (interfaceDecl n) (interfaceDecl (n + 1)) := by
  unfold interfaceDecl
  refine Within.bind Within.refl steps_advance fun _ =>
    Within.bind_consumes Within.refl (steps_expect (by decide)) fun _ => ?_
  refine Within.bind Within.refl (steps_expect (by decide)).moves fun _ =>
    Within.bind Within.refl (steps_expect (by decide)).moves fun _ => ?_
  refine Within.bind Within.refl steps_current fun _ => ?_
  dsimp only
  split
  · exact Within.throw_bind (by simp)
  refine Within.bind Within.refl steps_advance fun _ => Within.bind_same (within_withGenerics _ ?_)
  exact Within.bind Within.refl (steps_expect (by decide)).moves fun _ =>
    Within.bind_same (within_prototypes n n _ [] (by omega) (by omega))

/-- A constructor of an enum read with one more unit of fuel gives the same result, within weight
`n`. -/
theorem ctorEntry_stable (n : Nat) : Within n (ctorEntry n) (ctorEntry (n + 1)) := by
  unfold ctorEntry
  refine Within.bind_consumes Within.refl (steps_expect (by decide)) fun _ =>
    Within.bind Within.refl (steps_eat _) fun _ => ?_
  extract_lets
  split
  · exact Within.bind (within_delimited (typeExpr_steps n) _ n _ [] (by omega)
      ((typeExpr_stable n).mono (by omega)))
      (steps_delimited (typeExpr_steps n) (by decide) n []).moves fun _ => Within.refl
  · exact Within.refl

/-- An enum declaration read with one more unit of fuel gives the same result, within weight `n`. -/
theorem enumDecl_stable (n : Nat) : Within n (enumDecl n) (enumDecl (n + 1)) := by
  unfold enumDecl
  refine Within.bind Within.refl steps_advance fun _ =>
    Within.bind_consumes Within.refl (steps_expect (by decide)) fun _ => ?_
  refine Within.bind ((genericParams_stable n).mono (by omega)) (genericParams_steps n) fun _ =>
    Within.bind Within.refl (steps_expect (by decide)).moves fun _ => ?_
  refine Within.bind Within.refl Steps.get fun _ => Within.bind Within.refl steps_freshId fun _ => ?_
  refine Within.bind Within.refl (steps_declare _) fun _ => Within.bind_same ?_
  exact within_withGenerics _ (within_delimited (ctorEntry_steps n) _ n _ [] (by omega)
    ((ctorEntry_stable n).mono (by omega)))

/-- A pattern read with one more unit of fuel gives the same result, within weight `n`. -/
theorem pattern_stable (n : Nat) : Within n (pattern n) (pattern (n + 1)) := by
  unfold pattern
  refine Within.bind Within.refl steps_current fun _ => ?_
  dsimp only
  split
  · exact Within.throw_bind (by simp)
  refine Within.bind Within.refl steps_advance fun _ =>
    Within.bind Within.refl (steps_eat _) fun _ => ?_
  split
  · exact Within.bind_same (within_delimited steps_binding _ n n [] (Nat.le_refl _) Within.refl)
  · exact Within.refl

end Declarations

mutual

/-- **An expression read with one more unit of fuel gives the same result**, within weight `n - 4`.
-/
theorem expr_stable : (n : Nat) → (bp : Power) → Within (n - 4) (expr n bp) (expr (n + 1) bp)
  | 0, _ => Within.vacuous (by omega)
  | n + 1, bp => by
    unfold expr
    exact Within.bind_consumes ((start_stable n).mono (by omega)) (start_steps n) fun left =>
      (extend_stable n bp left).mono (by omega)

/-- Operators and calls read with one more unit of fuel give the same result, within weight `n - 3`.
-/
theorem extend_stable : (n : Nat) → (bp : Power) → (left : Node) →
    Within (n - 3) (extend n bp left) (extend (n + 1) bp left)
  | 0, _, _ => Within.vacuous (by omega)
  | n + 1, bp, left => by
    unfold extend
    refine Within.current_bind fun t => ?_
    dsimp only
    split
    · exact Within.toAt Within.refl
    next hrank =>
    split
    · exact Within.toAt (Within.bind_consumes ((callExpr_stable n left).mono (by omega))
        (callExpr_steps n left) fun m => (extend_stable n bp m).mono (by omega))
    · -- an operator that binds more strongly than `bp` is not the end mark
      have hk : t.kind ≠ .eof := fun he => hrank (by rw [he]; exact Nat.zero_le _)
      exact WithinAt.bind_consumes ((binaryExpr_stable n left _ t.kind hk).mono (by omega))
        (Steps.toAt (binaryExpr_steps n left _)) fun m => (extend_stable n bp m).mono (by omega)

/-- The start of an expression read with one more unit of fuel gives the same result, within weight
`n - 3`. -/
theorem start_stable : (n : Nat) → Within (n - 3) (start n) (start (n + 1))
  | 0 => Within.vacuous (by omega)
  | n + 1 => by
    unfold start
    refine Within.current_bind fun t => ?_
    split
    · exact Within.toAt ((primary_stable n).mono (by omega))
    · exact Within.toAt ((primary_stable n).mono (by omega))
    · exact Within.toAt ((primary_stable n).mono (by omega))
    · next h => exact (prefixExpr_stable n t.kind (by rw [h]; decide)).mono (by omega)
    · next h => exact (prefixExpr_stable n t.kind (by rw [h]; decide)).mono (by omega)
    · next h => exact (grouping_stable n t.kind (by rw [h]; decide)).mono (by omega)
    · next h => exact (listExpr_stable n t.kind (by rw [h]; decide)).mono (by omega)
    · exact Within.toAt ((blockExpr_stable n).mono (by omega))
    · next h => exact (ifExpr_stable n t.kind (by rw [h]; decide)).mono (by omega)
    · next h => exact (letExpr_stable n t.kind (by rw [h]; decide)).mono (by omega)
    · next h => exact (matchExpr_stable n t.kind (by rw [h]; decide)).mono (by omega)
    · exact Within.toAt Within.refl

/-- A literal, a name or a constructor expression read with one more unit of fuel gives the same
result, within weight `n - 2`. -/
theorem primary_stable : (n : Nat) → Within (n - 2) (primary n) (primary (n + 1))
  | 0 => Within.vacuous (by omega)
  | n + 1 => by
    unfold primary
    refine Within.current_bind fun _ => ?_
    split
    · split
      · exact Within.toAt (Within.throw (by simp))
      · exact Within.toAt Within.refl
    · split
      · exact Within.toAt ((constructorExpr_stable n).mono (by omega))
      · exact Within.toAt Within.refl
    · exact Within.toAt Within.refl
    · exact Within.toAt Within.refl

/-- The arguments of a call read with one more unit of fuel give the same result, within weight `n -
1`. -/
theorem arguments_stable : (n : Nat) → Within (n - 1) (arguments n) (arguments (n + 1))
  | 0 => Within.vacuous (by omega)
  | n + 1 => by
    unfold arguments
    exact Within.bind_consumes Within.refl (steps_expect (by decide)) fun _ =>
      within_delimited (expr_steps n .default) _ n _ [] (by omega)
        ((expr_stable n .default).mono (by omega))

/-- A constructor expression read with one more unit of fuel gives the same result, within weight `n
- 1`. -/
theorem constructorExpr_stable : (n : Nat) →
    Within (n - 1) (constructorExpr n) (constructorExpr (n + 1))
  | 0 => Within.vacuous (by omega)
  | n + 1 => by
    unfold constructorExpr
    refine Within.bind_consumes Within.refl (steps_expect (by decide)) fun _ =>
      Within.bind Within.refl steps_current fun _ => ?_
    extract_lets
    split
    · exact Within.bind ((arguments_stable n).mono (by omega)) (arguments_steps n).moves fun _ =>
        Within.refl
    · exact Within.refl

/-- A binary operation read with one more unit of fuel gives the same result, within weight `n - 1`,
at an operator that is not the end mark. -/
theorem binaryExpr_stable : (n : Nat) → (left : Node) → (bp : Power) → (k : TokenKind) →
    k ≠ .eof → WithinAt k (n - 1) (binaryExpr n left bp) (binaryExpr (n + 1) left bp)
  | 0, _, _, _, _ => Within.toAt (Within.vacuous (by omega))
  | n + 1, left, bp, _, hk => by
    unfold binaryExpr
    exact withinAt_advance_bind hk fun _ => Within.bind_same ((expr_stable n bp).mono (by omega))

/-- A prefix operation read with one more unit of fuel gives the same result, within weight `n - 1`,
at an operator that is not the end mark. -/
theorem prefixExpr_stable : (n : Nat) → (k : TokenKind) → k ≠ .eof →
    WithinAt k (n - 1) (prefixExpr n) (prefixExpr (n + 1))
  | 0, _, _ => Within.toAt (Within.vacuous (by omega))
  | n + 1, _, hk => by
    unfold prefixExpr
    exact withinAt_advance_bind hk fun _ =>
      Within.bind_same ((expr_stable n .unary).mono (by omega))

/-- An expression in parentheses read with one more unit of fuel gives the same result, within
weight `n - 1`, at a token that is not the end mark. -/
theorem grouping_stable : (n : Nat) → (k : TokenKind) → k ≠ .eof →
    WithinAt k (n - 1) (grouping n) (grouping (n + 1))
  | 0, _, _ => Within.toAt (Within.vacuous (by omega))
  | n + 1, _, hk => by
    unfold grouping
    exact withinAt_advance_bind hk fun _ =>
      Within.bind_same ((expr_stable n .default).mono (by omega))

/-- A call read with one more unit of fuel gives the same result, within weight `n - 2`. -/
theorem callExpr_stable : (n : Nat) → (callee : Node) →
    Within (n - 2) (callExpr n callee) (callExpr (n + 1) callee)
  | 0, _ => Within.vacuous (by omega)
  | n + 1, _ => by
    unfold callExpr
    exact Within.bind_same ((arguments_stable n).mono (by omega))

/-- A list expression read with one more unit of fuel gives the same result, within weight `n - 1`,
at a token that is not the end mark. -/
theorem listExpr_stable : (n : Nat) → (k : TokenKind) → k ≠ .eof →
    WithinAt k (n - 1) (listExpr n) (listExpr (n + 1))
  | 0, _, _ => Within.toAt (Within.vacuous (by omega))
  | n + 1, _, hk => by
    unfold listExpr
    exact withinAt_advance_bind hk fun _ => Within.bind_same (within_delimited
      (expr_steps n .default) _ n _ [] (by omega) ((expr_stable n .default).mono (by omega)))

/-- A block read with one more unit of fuel gives the same result, within weight `n - 1`. -/
theorem blockExpr_stable : (n : Nat) → Within (n - 1) (blockExpr n) (blockExpr (n + 1))
  | 0 => Within.vacuous (by omega)
  | n + 1 => by
    unfold blockExpr
    exact Within.bind_consumes Within.refl (steps_expect (by decide)) fun _ =>
      Within.bind_same ((blockItems_stable n []).mono (by omega))

/-- The items of a block read with one more unit of fuel give the same result, within weight `n -
6`. -/
theorem blockItems_stable : (n : Nat) → (acc : List Node) →
    Within (n - 6) (blockItems n acc) (blockItems (n + 1) acc)
  | 0, _ => Within.vacuous (by omega)
  | n + 1, acc => by
    unfold blockItems
    refine Within.bind Within.refl steps_current fun _ => ?_
    split
    · exact Within.refl
    split
    · exact Within.refl
    exact Within.bind_consumes ((item_stable n).mono (by omega)) (item_steps n) fun _ =>
      (blockItems_stable n _).mono (by omega)

/-- An `if` read with one more unit of fuel gives the same result, within weight `n - 1`, at a
keyword that is not the end mark. -/
theorem ifExpr_stable : (n : Nat) → (k : TokenKind) → k ≠ .eof →
    WithinAt k (n - 1) (ifExpr n) (ifExpr (n + 1))
  | 0, _, _ => Within.toAt (Within.vacuous (by omega))
  | n + 1, _, hk => by
    unfold ifExpr
    refine withinAt_advance_bind hk fun _ => ?_
    refine Within.bind_consumes ((expr_stable n .default).mono (by omega)) (expr_steps n .default)
      fun _ => ?_
    refine Within.bind ((blockExpr_stable n).mono (by omega)) (blockExpr_steps n).moves fun _ =>
      Within.bind Within.refl (steps_eat _) fun _ => ?_
    extract_lets
    split
    · refine Within.current_bind fun t => ?_
      split
      · next h => exact WithinAt.bind (WithinAt.map ((ifExpr_stable n t.kind
          (by rw [h]; decide)).mono (by omega))) (Steps.map (ifExpr_steps n)).moves fun _ =>
            Within.refl
      · exact Within.toAt (Within.bind (Within.map ((blockExpr_stable n).mono (by omega)))
          (Steps.map (blockExpr_steps n)).moves fun _ => Within.refl)
    · exact Within.refl

/-- An assignment read with one more unit of fuel gives the same result, within weight `n - 1`. -/
theorem assignment_stable : (n : Nat) → Within (n - 1) (assignment n) (assignment (n + 1))
  | 0 => Within.vacuous (by omega)
  | n + 1 => by
    unfold assignment
    refine Within.bind Within.refl steps_position fun _ =>
      Within.bind Within.refl steps_current fun _ => ?_
    extract_lets jp₁ jp₂
    have hk : ∀ left, Within (n + 1 - 1) (jp₁ left) (jp₂ left) := fun _ =>
      Within.bind_consumes Within.refl (steps_expect (by decide)) fun _ =>
        Within.bind_same ((expr_stable n .default).mono (by omega))
    split
    · exact Within.bind ((pattern_stable n).mono (by omega)) (pattern_steps n) hk
    · exact Within.bind Within.refl steps_binding.moves fun _ =>
        Within.bind Within.refl Steps.pure hk

/-- The assignments after the first of a `let` read with one more unit of fuel give the same result,
within weight `n - 2`. -/
theorem moreAssignments_stable : (n : Nat) → (acc : List Node) →
    Within (n - 2) (moreAssignments n acc) (moreAssignments (n + 1) acc)
  | 0, _ => Within.vacuous (by omega)
  | n + 1, acc => by
    unfold moreAssignments
    refine Within.bind Within.refl (steps_eat _) fun _ => ?_
    split
    · exact Within.bind_consumes ((assignment_stable n).mono (by omega)) (assignment_steps n)
        fun _ => (moreAssignments_stable n _).mono (by omega)
    · exact Within.refl

/-- A `let` read with one more unit of fuel gives the same result, within weight `n - 1`, at a
keyword that is not the end mark. -/
theorem letExpr_stable : (n : Nat) → (k : TokenKind) → k ≠ .eof →
    WithinAt k (n - 1) (letExpr n) (letExpr (n + 1))
  | 0, _, _ => Within.toAt (Within.vacuous (by omega))
  | n + 1, _, hk => by
    unfold letExpr
    refine withinAt_advance_bind hk fun _ => ?_
    refine Within.bind_consumes ((assignment_stable n).mono (by omega)) (assignment_steps n)
      fun _ => ?_
    exact Within.bind ((moreAssignments_stable n []).mono (by omega)) (moreAssignments_steps n [])
      fun _ => Within.bind_same ((blockExpr_stable n).mono (by omega))

/-- A case of a `match` read with one more unit of fuel gives the same result, within weight `n -
1`. -/
theorem caseExpr_stable : (n : Nat) → Within (n - 1) (caseExpr n) (caseExpr (n + 1))
  | 0 => Within.vacuous (by omega)
  | n + 1 => by
    unfold caseExpr
    refine Within.bind Within.refl steps_position fun _ =>
      Within.bind ((pattern_stable n).mono (by omega)) (pattern_steps n) fun _ => ?_
    exact Within.bind_consumes Within.refl (steps_expect (by decide)) fun _ =>
      Within.bind_same ((expr_stable n .default).mono (by omega))

/-- The cases of a `match` read with one more unit of fuel give the same result, within weight `n -
2`. -/
theorem cases_stable : (n : Nat) → (acc : List Node) →
    Within (n - 2) (cases n acc) (cases (n + 1) acc)
  | 0, _ => Within.vacuous (by omega)
  | n + 1, acc => by
    unfold cases
    refine Within.bind Within.refl steps_current fun _ => ?_
    split
    · exact Within.refl
    · exact Within.bind_consumes ((caseExpr_stable n).mono (by omega)) (caseExpr_steps n) fun _ =>
        Within.bind Within.refl (steps_eat _) fun _ => (cases_stable n _).mono (by omega)

/-- A `match` read with one more unit of fuel gives the same result, within weight `n - 1`, at a
keyword that is not the end mark. -/
theorem matchExpr_stable : (n : Nat) → (k : TokenKind) → k ≠ .eof →
    WithinAt k (n - 1) (matchExpr n) (matchExpr (n + 1))
  | 0, _, _ => Within.toAt (Within.vacuous (by omega))
  | n + 1, _, hk => by
    unfold matchExpr
    refine withinAt_advance_bind hk fun _ => ?_
    refine Within.bind_consumes ((expr_stable n .default).mono (by omega)) (expr_steps n .default)
      fun _ => Within.bind Within.refl (steps_expect (by decide)).moves fun _ => ?_
    exact Within.bind_same ((cases_stable n []).mono (by omega))

/-- **An item read with one more unit of fuel gives the same result**, within weight `n - 5`. -/
theorem item_stable : (n : Nat) → Within (n - 5) (item n) (item (n + 1))
  | 0 => Within.vacuous (by omega)
  | n + 1 => by
    unfold item
    refine Within.bind Within.refl steps_current fun _ => ?_
    split
    · exact (fnDecl_stable n).mono (by omega)
    · exact (externDecl_stable n).mono (by omega)
    · exact (interfaceDecl_stable n).mono (by omega)
    · exact (implDecl_stable n).mono (by omega)
    · exact (enumDecl_stable n).mono (by omega)
    · exact Within.bind_same ((expr_stable n .default).mono (by omega))

/-- A function declaration read with one more unit of fuel gives the same result, within weight `n -
1`. -/
theorem fnDecl_stable : (n : Nat) → Within (n - 1) (fnDecl n) (fnDecl (n + 1))
  | 0 => Within.vacuous (by omega)
  | n + 1 => by
    unfold fnDecl
    refine Within.bind Within.refl steps_advance fun _ =>
      Within.bind_consumes ((signature_stable n).mono (by omega)) (signature_steps n) fun _ => ?_
    exact Within.bind_same ((blockExpr_stable n).mono (by omega))

/-- An implementation block read with one more unit of fuel gives the same result, within weight `n
- 1`. -/
theorem implDecl_stable : (n : Nat) → Within (n - 1) (implDecl n) (implDecl (n + 1))
  | 0 => Within.vacuous (by omega)
  | n + 1 => by
    unfold implDecl
    refine Within.bind Within.refl steps_advance fun _ =>
      Within.bind_consumes Within.refl (steps_expect (by decide)) fun _ => ?_
    refine Within.bind Within.refl Steps.get fun _ => ?_
    extract_lets jp₁ jp₂
    have hk : ∀ iface, Within (n + 1 - 1 - 8) (jp₁ iface) (jp₂ iface) := fun iface => by
      refine Within.bind Within.refl (steps_expect (by decide)).moves fun _ =>
        Within.bind Within.refl steps_position fun _ => ?_
      refine Within.bind ((typeExpr_stable n).mono (by omega)) (typeExpr_steps n).moves fun _ =>
        Within.bind Within.refl (steps_expect (by decide)).moves fun _ => ?_
      extract_lets jp₁' jp₂'
      have hk' : ∀ key, Within (n + 1 - 1 - 8) (jp₁' key) (jp₂' key) := fun key => by
        refine Within.bind Within.refl Steps.get fun _ => ?_
        dsimp only
        split
        · exact Within.throw_bind (by simp)
        refine Within.bind Within.refl (steps_declare _) fun _ =>
          Within.bind Within.refl (steps_expect (by decide)).moves fun _ => ?_
        exact Within.bind_same ((implMethods_stable n iface _ key []).mono (by omega))
      split
      · exact Within.bind Within.refl Steps.pure hk'
      · exact Within.throw_bind (by simp)
    split
    · refine Within.bind Within.refl Steps.get fun _ => ?_
      split
      · exact Within.bind Within.refl Steps.pure hk
      · exact Within.throw_bind (by simp)
    · exact Within.throw_bind (by simp)

/-- The methods of an implementation block read with one more unit of fuel give the same result,
within weight `n - 1`. -/
theorem implMethods_stable : (n : Nat) → (iface : Iface) → (ty : Ty) → (key : String) →
    (acc : List Node) →
    Within (n - 1) (implMethods n iface ty key acc) (implMethods (n + 1) iface ty key acc)
  | 0, _, _, _, _ => Within.vacuous (by omega)
  | n + 1, iface, ty, key, acc => by
    unfold implMethods
    refine Within.bind Within.refl steps_current fun _ => ?_
    split
    · exact Within.refl
    refine Within.bind_consumes Within.refl (steps_expect (by decide)) fun _ =>
      Within.bind Within.refl (steps_expect (by decide)).moves fun _ => ?_
    extract_lets _ jp₁ jp₂
    have hk : ∀ method, Within (n + 1 - 1 - 8) (jp₁ method) (jp₂ method) := fun _ => by
      refine Within.bind_consumes Within.refl (steps_expect (by decide)) fun _ => ?_
      refine Within.bind (within_delimited steps_binding _ n _ [] (by omega) Within.refl)
        (steps_delimited steps_binding (by decide) n []).moves fun _ => ?_
      refine Within.bind_consumes ((blockExpr_stable n).mono (by omega)) (blockExpr_steps n)
        fun _ => ?_
      exact Within.bind Within.refl (steps_declare _) fun _ =>
        Within.bind Within.refl (steps_spanFrom _) fun _ =>
          (implMethods_stable n _ _ _ _).mono (by omega)
    split
    · exact Within.bind Within.refl Steps.pure hk
    · exact Within.throw_bind (by simp)

end

/-- The item loop of a program agrees with one more unit of fuel. -/
theorem programItems_stable : (n : Nat) → (acc : List Node) →
    Within (n - 6) (programItems n acc) (programItems (n + 1) acc)
  | 0, _ => Within.vacuous (by omega)
  | n + 1, acc => by
    unfold programItems
    refine Within.bind Within.refl steps_current fun _ => ?_
    split
    · exact Within.refl
    · exact Within.bind_consumes ((item_stable n).mono (by omega)) (item_steps n) fun _ =>
        (programItems_stable n _).mono (by omega)

section Program

/-- The token list a program is read from ends with the end mark. -/
theorem withEnd_back (toks : Array Token) : ∃ t, (withEnd toks).back? = some t ∧ t.kind = .eof := by
  unfold withEnd
  rcases h : toks.back? with _ | t
  · exact ⟨eofAt 0, Array.back?_push, rfl⟩
  · dsimp only
    split
    · next hk => exact ⟨t, h, hk⟩
    · exact ⟨eofAt t.span.stop, Array.back?_push, rfl⟩

/-- Reading a program starts from a sound state. -/
theorem sound_start (toks : Array Token) (d : Decls) : Sound ⟨withEnd toks, 0, d, []⟩ := by
  obtain ⟨t, hback, hk⟩ := withEnd_back toks
  rw [Array.back?_eq_getElem?] at hback
  have hlt : (withEnd toks).size - 1 < (withEnd toks).size := by
    rcases Nat.lt_or_ge ((withEnd toks).size - 1) (withEnd toks).size with h | h
    · exact h
    · rw [Array.getElem?_eq_none h] at hback
      cases hback
  refine ⟨show 0 < (withEnd toks).size by omega, ?_⟩
  simp only [tokenAt, Nat.min_self, hback, Option.getD_some, hk]

/-- The fuel a program is read with covers the weight of the state reading starts from. -/
theorem weight_start_le (toks : Array Token) (d : Decls) :
    weight ⟨withEnd toks, 0, d, []⟩ + 6 ≤ fuelFor (withEnd toks) := by
  -- the start weighs eight for each token, and the fuel is sixteen for each
  show 8 * ((withEnd toks).size - 0) + 6 ≤ 16 * ((withEnd toks).size + 1)
  omega

/-- Past the fuel the weight of a state asks for, more fuel leaves the item loop's result as
it is. -/
theorem programItems_fuel_adequate (acc : List Node) {s : State} (hs : Sound s) {n : Nat}
    (hw : weight s + 6 ≤ n) (k : Nat) :
    (programItems (n + k) acc).run s = (programItems n acc).run s := by
  induction k with
  | zero => rfl
  | succ k ih =>
    rw [← ih]
    exact (programItems_stable (n + k) acc s hs (by omega)).1.symm

/-- Reads a program as `program` does, with the fuel given. -/
def programWith (fuel : Nat) (toks : Array Token) (d : Decls := Decls.initial) :
    Except Located Program :=
  let toks := withEnd toks
  let run : Reader Program := do
    let items ← programItems fuel []
    pure ⟨.mk (.block items) (← spanFrom 0) none, (← get).decls⟩
  (run.run ⟨toks, 0, d, []⟩).map (·.1)

/-- `program` reads with the fuel `fuelFor` gives. -/
theorem program_eq_programWith (toks : Array Token) (d : Decls) :
    program toks d = programWith (fuelFor (withEnd toks)) toks d := rfl

/-- Any fuel from `fuelFor` on reads the same program, or fails with the same fault. -/
theorem programWith_eq_program {toks : Array Token} {d : Decls} {n : Nat}
    (hn : fuelFor (withEnd toks) ≤ n) : programWith n toks d = program toks d := by
  have hs := sound_start toks d
  obtain ⟨k, rfl⟩ := Nat.exists_eq_add_of_le hn
  have h := programItems_fuel_adequate [] hs (weight_start_le toks d) k
  rw [program_eq_programWith]
  unfold programWith
  dsimp only
  rw [StateT.run_bind, StateT.run_bind, h]

/-- Mapping over a result that is no running out of fuel gives one that is none either. -/
theorem Unspent.map {α β : Type} {f : α → β} {r : Except Located α} (h : Unspent r) :
    Unspent (r.map f) := by
  cases r with
  | error e => exact h.cast
  | ok a => exact unspent_ok _

/-- Reading a program never runs out of fuel: no reader comes to its zero-fuel branch, the only
step that raises `outOfFuel`, since the item loop starts with fuel over the weight of its
state and every reader keeps its calls within that bound. -/
theorem program_unspent (toks : Array Token) (d : Decls) : Unspent (program toks d) := by
  have hu := (programItems_stable (fuelFor (withEnd toks)) [] _ (sound_start toks d)
    (by have := weight_start_le toks d; omega)).2
  unfold program
  dsimp only
  exact (run_bind_agree ⟨rfl, hu⟩ fun _ s' _ => ⟨rfl, Tame.unspent s'⟩).2.map

/-- **Reading a program terminates and stays on its tokens.** The tokens read end with the end
mark and reading starts on them; the item loop, at any fuel, only moves forward and never past
the last token, so every token it reads is one of the list; reading never comes to a zero-fuel
branch, whose fault `outOfFuel` it never returns; and every fuel from `fuelFor` on gives the
same result. So reading ends on its own, with a program or a fault of the grammar, before the
fuel runs out. -/
theorem program_terminates_in_bounds (toks : Array Token) (d : Decls) :
    Sound ⟨withEnd toks, 0, d, []⟩ ∧ (∀ n acc, Steps 0 (programItems n acc)) ∧
      (∀ pos, program toks d ≠ .error ⟨.outOfFuel, pos⟩) ∧
      ∀ n, fuelFor (withEnd toks) ≤ n → programWith n toks d = program toks d :=
  ⟨sound_start toks d, programItems_steps, program_unspent toks d,
    fun _ hn => programWith_eq_program hn⟩

/-- Reading the single token `1` with fuel to spare. -/
theorem program_terminates_number :
    fuelFor (withEnd #[⟨.number, "1", ⟨0, 1⟩⟩]) ≤ 100 ∧
      programWith 100 #[⟨.number, "1", ⟨0, 1⟩⟩] Decls.initial =
        program #[⟨.number, "1", ⟨0, 1⟩⟩] Decls.initial :=
  ⟨by decide, (program_terminates_in_bounds _ _).2.2.2 100 (by decide)⟩

end Program

end Parse
end Verve
