import Verve.Proofs.Dispatch

/-!
# Reading moves forward and stays on the tokens

A reading state is sound (`Parse.Sound`) when its position is on its tokens and the last token
is the end mark. `Parse.Steps c r` says that every run of `r` from a sound state that returns
ends on the same tokens, at least `c` tokens further on and still on them; so the clamp in
`tokenAt` never acts, and the position never moves past the end mark. It composes along
`bind` by adding the counts.

`advance` consumes every token but the end mark, where it stays (`Parse.stepsAt_advance`);
the readers only call it on a token they have looked at, or after `expect`, so every reader
that starts an expression, a type or a declaration consumes at least one token
(`Parse.expr_steps`, `Parse.typeExpr_steps`, `Parse.item_steps`), and the loops only move
forward (`Parse.programItems_steps`). Fuel plays no part: these hold at every fuel.
-/

namespace Verve
namespace Parse

/-- A state whose position is on its tokens, the last of which is the end mark. -/
structure Sound (s : State) : Prop where
  pos_lt : s.pos < s.tokens.size
  last_eof : (tokenAt s.tokens (s.tokens.size - 1)).kind = .eof

namespace Sound

variable {s : State}

/-- The current token of a sound state is the token at its position: the clamp of
`tokenAt` does not act. -/
theorem getElem?_pos (hs : Sound s) : s.tokens[s.pos]? = some (tokenAt s.tokens s.pos) := by
  have hmin : min s.pos (s.tokens.size - 1) = s.pos := Nat.min_eq_left (by have := hs.pos_lt; omega)
  simp only [tokenAt, hmin, Array.getElem?_eq_getElem hs.pos_lt, Option.getD_some]

/-- A current token other than the end mark is not the last token. -/
theorem lt_of_ne_eof (hs : Sound s) (h : (tokenAt s.tokens s.pos).kind ≠ .eof) :
    s.pos + 1 < s.tokens.size := by
  have hlt := hs.pos_lt
  rcases Nat.lt_or_ge (s.pos + 1) s.tokens.size with hnext | hge
  · exact hnext
  · have hlast : s.pos = s.tokens.size - 1 := by omega
    exact absurd (hlast ▸ hs.last_eof) h

/-- A state on the same tokens whose position is still on them is sound. -/
theorem moved (hs : Sound s) {s' : State} (ht : s'.tokens = s.tokens)
    (hp : s'.pos < s.tokens.size) : Sound s' where
  pos_lt := by rw [ht]; exact hp
  last_eof := by rw [ht]; exact hs.last_eof

end Sound

/-- A run of `r` from `s` that returns ends on the same tokens, at least `c` tokens further
on and still on them. -/
def Runs {α : Type} (c : Nat) (r : Reader α) (s : State) : Prop :=
  ∀ a s', r.run s = .ok (a, s') →
    s'.tokens = s.tokens ∧ s.pos + c ≤ s'.pos ∧ s'.pos < s.tokens.size

/-- Every run of `r` from a sound state moves at least `c` tokens on and stays on them. -/
def Steps {α : Type} (c : Nat) (r : Reader α) : Prop := ∀ s, Sound s → Runs c r s

/-- As `Steps`, from the sound states whose current token is of kind `k`. -/
def StepsAt {α : Type} (k : TokenKind) (c : Nat) (r : Reader α) : Prop :=
  ∀ s, Sound s → (tokenAt s.tokens s.pos).kind = k → Runs c r s

/-- The state a run ends in is sound. -/
theorem Sound.of_runs {α : Type} {c : Nat} {r : Reader α} {s s' : State} {a : α}
    (hs : Sound s) (hr : Runs c r s) (h : r.run s = .ok (a, s')) : Sound s' :=
  hs.moved (hr a s' h).1 (hr a s' h).2.2

/-- Runs compose along `bind`, adding what they consume. -/
theorem Runs.bind {α β : Type} {c c' : Nat} {m : Reader α} {f : α → Reader β} {s : State}
    (hs : Sound s) (hm : Runs c m s) (hf : ∀ a s', Sound s' → Runs c' (f a) s') :
    Runs (c + c') (m >>= f) s := by
  intro b s'' h
  obtain ⟨a, s', hm', hf'⟩ := run_bind_eq_ok h
  obtain ⟨ht, hp, hl⟩ := hm a s' hm'
  obtain ⟨ht', hp', hl'⟩ := hf a s' (hs.of_runs hm hm') b s'' hf'
  exact ⟨ht'.trans ht, by omega, by rw [← ht]; exact hl'⟩

namespace Steps

variable {α β : Type} {c c' : Nat}

/-- Returning a value moves nowhere. -/
theorem pure {a : α} : Steps 0 (Pure.pure a : Reader α) := by
  intro s hs b s' h
  obtain ⟨-, rfl⟩ := run_pure_eq_ok h
  exact ⟨rfl, Nat.le_refl _, hs.pos_lt⟩

/-- A fault returns nothing, so it may be said to consume anything. -/
theorem throw {e : Located} : Steps c (MonadExcept.throw e : Reader α) :=
  fun _ _ _ _ h => by cases h

/-- Nothing after a fault runs. -/
theorem throw_bind {e : Located} {f : α → Reader β} : Steps c (MonadExcept.throw e >>= f) :=
  fun _ _ _ _ h => by cases h

/-- A reader that leaves the state as it is moves nowhere. -/
theorem of_keeps {r : Reader α} (h : ∀ s a s', r.run s = .ok (a, s') → s' = s) : Steps 0 r := by
  intro s hs a s' hr
  obtain rfl := h s a s' hr
  exact ⟨rfl, Nat.le_refl _, hs.pos_lt⟩

/-- A reader that consumes some tokens consumes fewer. -/
theorem mono {r : Reader α} (h : Steps c r) (hc : c' ≤ c) : Steps c' r := by
  intro s hs a s' hr
  obtain ⟨ht, hp, hl⟩ := h s hs a s' hr
  exact ⟨ht, by omega, hl⟩

/-- Two readers run one after the other consume what each consumes. -/
theorem bind {m : Reader α} {f : α → Reader β} (hm : Steps c m) (hf : ∀ a, Steps c' (f a)) :
    Steps (c + c') (m >>= f) :=
  fun s hs => Runs.bind hs (hm s hs) fun a s' hs' => hf a s' hs'

/-- What the first reader consumes, the bind consumes. -/
theorem bind_left {m : Reader α} {f : α → Reader β} (hm : Steps c m) (hf : ∀ a, Steps 0 (f a)) :
    Steps c (m >>= f) :=
  bind hm hf

/-- What the rest consumes, the bind consumes. -/
theorem bind_right {m : Reader α} {f : α → Reader β} (hm : Steps 0 m) (hf : ∀ a, Steps c (f a)) :
    Steps c (m >>= f) := by
  simpa using bind hm hf

/-- Mapping over the value a reader returns consumes what the reader does. -/
theorem map {m : Reader α} {f : α → β} (hm : Steps c m) : Steps c (f <$> m) := by
  intro s hs b s' h
  rw [StateT.run_map] at h
  rcases hr : m.run s with e | ⟨a, s''⟩
  · rw [hr] at h
    cases h
  · rw [hr] at h
    cases h
    exact hm s hs a _ hr

/-- Reading the state moves nowhere. -/
theorem get : Steps 0 (MonadState.get : Reader State) :=
  of_keeps fun _ _ _ h => (run_get_eq_ok h).2.symm

/-- A change of the state that keeps its tokens and position. -/
theorem modify {f : State → State} (hf : ∀ s, (f s).tokens = s.tokens ∧ (f s).pos = s.pos) :
    Steps 0 (modify f : Reader Unit) := by
  intro s hs a s' h
  cases h
  exact ⟨(hf s).1, by rw [(hf s).2]; omega, by rw [(hf s).2]; exact hs.pos_lt⟩

/-- A `for` loop whose rounds stay on the tokens stays on them. -/
theorem forIn {γ : Type} {l : List γ} {b : β} {f : γ → β → Reader (ForInStep β)}
    (hf : ∀ x b, Steps 0 (f x b)) : Steps 0 (ForIn.forIn l b f) := by
  induction l generalizing b with
  | nil => exact pure
  | cons x l ih =>
    rw [List.forIn_cons]
    refine bind_left (hf x b) fun r => ?_
    cases r with
    | done b' => exact pure
    | yield b' => exact ih

/-- A reader that consumes also moves. -/
theorem moves {r : Reader α} (h : Steps c r) : Steps 0 r :=
  h.mono (Nat.zero_le _)

/-- A step that holds everywhere holds from the states with a given current token. -/
theorem toAt {r : Reader α} {k : TokenKind} (h : Steps c r) : StepsAt k c r :=
  fun s hs _ => h s hs

/-- Looking at the current token first, the rest may use what it is. -/
theorem current_bind {f : Token → Reader α} (h : ∀ t, StepsAt t.kind c (f t)) :
    Steps c (current >>= f) :=
  fun s hs => h (tokenAt s.tokens s.pos) s hs rfl

end Steps

/-- What a reader consumes from a token of kind `k`, it consumes followed by a reader that stays on
the tokens. -/
theorem StepsAt.bind_left {α β : Type} {k : TokenKind} {c : Nat} {m : Reader α}
    {f : α → Reader β} (hm : StepsAt k c m) (hf : ∀ a, Steps 0 (f a)) :
    StepsAt k c (m >>= f) :=
  fun s hs hk => Runs.bind hs (hm s hs hk) fun a s' hs' => hf a s' hs'

section Primitives

/-- Looking at the current token moves nowhere. -/
theorem steps_current : Steps 0 current :=
  Steps.of_keeps fun s _ _ h => by
    rw [run_current] at h
    cases h
    rfl

/-- Giving up on an unexpected token returns nothing. -/
theorem steps_unexpected {α : Type} {c : Nat} : Steps c (unexpected : Reader α) :=
  Steps.bind_right steps_current fun _ => Steps.throw

/-- A reader out of fuel returns nothing. -/
theorem steps_outOfFuel {α : Type} {c : Nat} : Steps c (outOfFuel : Reader α) :=
  Steps.bind_right steps_current fun _ => Steps.throw

/-- Moving past a token stays on the tokens: at the end mark it stays where it is. -/
theorem steps_advance : Steps 0 advance := by
  intro s hs t s' h
  rw [run_advance] at h
  cases h
  split
  · next hlt => exact ⟨rfl, Nat.le_succ _, hlt⟩
  · exact ⟨rfl, Nat.le_refl _, hs.pos_lt⟩

/-- `advance` consumes every token but the end mark. -/
theorem stepsAt_advance {k : TokenKind} (hk : k ≠ .eof) : StepsAt k 1 advance := by
  intro s hs hks t s' h
  have hlt := hs.lt_of_ne_eof (hks ▸ hk)
  rw [run_advance, if_pos hlt] at h
  cases h
  exact ⟨rfl, Nat.le_refl _, hlt⟩

/-- `expect` consumes the token it asks for, which is not the end mark. -/
theorem steps_expect {k : TokenKind} (hk : k ≠ .eof) : Steps 1 (expect k) := by
  unfold expect
  refine Steps.current_bind fun t => ?_
  split
  · next h => exact stepsAt_advance (by rw [h]; exact hk)
  · exact Steps.toAt Steps.throw

/-- Eating an optional token stays on the tokens. -/
theorem steps_eat (k : TokenKind) : Steps 0 (eat k) := by
  unfold eat
  refine Steps.bind_left steps_current fun _ => ?_
  split
  · exact Steps.bind_left steps_advance fun _ => Steps.pure
  · exact Steps.pure

/-- Taking the position moves nowhere. -/
theorem steps_position : Steps 0 position :=
  Steps.bind_left steps_current fun _ => Steps.pure

/-- Taking the span from a start moves nowhere. -/
theorem steps_spanFrom (start : Nat) : Steps 0 (spanFrom start) :=
  Steps.of_keeps fun s _ _ h => by
    obtain ⟨sp, hsp⟩ := run_spanFrom start s
    rw [hsp] at h
    cases h
    rfl

/-- Reading with more generic names in scope consumes what the reader does. -/
theorem steps_withGenerics {α : Type} {c : Nat} (names : List String) {r : Reader α}
    (hr : Steps c r) : Steps c (withGenerics names r) :=
  Steps.bind_right Steps.get fun _ =>
    Steps.bind_right (Steps.modify fun _ => ⟨rfl, rfl⟩) fun _ =>
      Steps.bind_left hr fun _ => Steps.bind_left (Steps.modify fun _ => ⟨rfl, rfl⟩) fun _ =>
        Steps.pure

/-- Declaring moves nowhere. -/
theorem steps_declare (f : Decls → Decls) : Steps 0 (declare f) :=
  Steps.modify fun _ => ⟨rfl, rfl⟩

/-- Taking a fresh declaration number moves nowhere. -/
theorem steps_freshId : Steps 0 freshId := by
  intro s hs a s' h
  cases h
  exact ⟨rfl, Nat.le_refl _, hs.pos_lt⟩

/-- A list up to a closing token consumes at least that token. -/
theorem steps_delimited {β : Type} {item : Reader β} (h : Steps 1 item) {close : TokenKind}
    (hclose : close ≠ .eof) : (fuel : Nat) → (acc : List β) →
    Steps 1 (delimited item close fuel acc)
  | 0, _ => steps_outOfFuel
  | fuel + 1, acc => by
    unfold delimited
    refine Steps.current_bind fun t => ?_
    split
    · next hc => exact StepsAt.bind_left (stepsAt_advance (by rw [hc]; exact hclose)) fun _ =>
        Steps.pure
    · refine Steps.toAt (Steps.bind_left h fun x => Steps.bind_left (steps_eat _) fun _ => ?_)
      split
      · exact (steps_delimited h hclose fuel (x :: acc)).mono (Nat.zero_le _)
      · exact Steps.bind_left ((steps_expect hclose).mono (Nat.zero_le _)) fun _ => Steps.pure

/-- A name bound by a parameter list or a pattern consumes its identifier. -/
theorem steps_binding : Steps 1 binding :=
  Steps.bind_left (steps_expect (by decide)) fun _ => Steps.pure

end Primitives

section Declarations

mutual

/-- **A type expression consumes at least one token.** -/
theorem typeExpr_steps : (fuel : Nat) → Steps 1 (typeExpr fuel)
  | 0 => steps_outOfFuel
  | fuel + 1 => by
    unfold typeExpr
    refine Steps.bind_right steps_current fun _ => ?_
    split
    · exact namedType_steps fuel
    · exact fnType_steps fuel
    · exact steps_unexpected

/-- A named type consumes at least its name. -/
theorem namedType_steps : (fuel : Nat) → Steps 1 (namedType fuel)
  | 0 => steps_outOfFuel
  | fuel + 1 => by
    unfold namedType
    refine Steps.bind_left (steps_expect (by decide)) fun _ => Steps.bind_left Steps.get fun _ => ?_
    extract_lets jp
    have hk : ∀ base, Steps 0 (jp base) := fun _ => by
      refine Steps.bind_left (steps_eat _) fun _ => ?_
      split
      · exact Steps.bind_left (steps_delimited (typeExpr_steps fuel) (by decide) fuel []).moves
          fun _ => Steps.pure
      · exact Steps.pure
    split
    · exact Steps.bind_left Steps.pure hk
    · split
      · exact Steps.bind_left Steps.pure hk
      · exact Steps.throw_bind

/-- A function type consumes at least its keyword. -/
theorem fnType_steps : (fuel : Nat) → Steps 1 (fnType fuel)
  | 0 => steps_outOfFuel
  | fuel + 1 => by
    unfold fnType
    refine Steps.bind_left (steps_expect (by decide)) fun _ => ?_
    refine Steps.bind_left (steps_expect (by decide)).moves fun _ => ?_
    refine Steps.bind_left (steps_delimited (typeExpr_steps fuel) (by decide) fuel []).moves
      fun _ => ?_
    exact Steps.bind_left (steps_expect (by decide)).moves fun _ =>
      Steps.bind_left (typeExpr_steps fuel).moves fun _ => Steps.pure

end

/-- Generic names in angle brackets, if any, stay on the tokens. -/
theorem genericParams_steps (fuel : Nat) : Steps 0 (genericParams fuel) := by
  unfold genericParams
  refine Steps.bind_left (steps_eat _) fun _ => ?_
  split
  · exact (steps_delimited (Steps.bind_left (steps_expect (by decide)) fun _ => Steps.pure)
      (by decide) fuel []).moves
  · exact Steps.pure

/-- A typed parameter consumes at least its name. -/
theorem typedParam_steps (fuel : Nat) : Steps 1 (typedParam fuel) :=
  Steps.bind_left (steps_expect (by decide)) fun _ =>
    Steps.bind_left (steps_expect (by decide)).moves fun _ =>
      Steps.bind_left (typeExpr_steps fuel).moves fun _ => Steps.pure

/-- A signature consumes at least the parenthesis that opens its parameters. -/
theorem signature_steps (fuel : Nat) : Steps 1 (signature fuel) := by
  unfold signature
  refine Steps.bind_right steps_current fun _ => ?_
  split
  · exact Steps.throw_bind
  refine Steps.bind_right steps_advance fun _ => Steps.bind_right (genericParams_steps fuel) fun _ => ?_
  refine steps_withGenerics _ (Steps.bind_left (steps_expect (by decide)) fun _ => ?_)
  refine Steps.bind_left (steps_delimited (typedParam_steps fuel) (by decide) fuel []).moves
    fun _ => ?_
  exact Steps.bind_left (steps_expect (by decide)).moves fun _ =>
    Steps.bind_left (typeExpr_steps fuel).moves fun _ => Steps.pure

/-- An extern declaration consumes at least its name. -/
theorem externDecl_steps (fuel : Nat) : Steps 1 (externDecl fuel) :=
  Steps.bind_right steps_advance fun _ => Steps.bind_left (steps_expect (by decide)) fun _ =>
    Steps.bind_left (signature_steps fuel).moves fun _ => Steps.bind_left (steps_eat _) fun _ =>
      Steps.bind_left (steps_declare _) fun _ => Steps.pure

/-- The prototypes of an interface stay on the tokens. -/
theorem prototypes_steps (fuel : Nat) : (n : Nat) → (acc : List Sig) →
    Steps 0 (prototypes fuel n acc)
  | 0, _ => steps_outOfFuel
  | n + 1, acc => by
    unfold prototypes
    refine Steps.bind_left steps_current fun _ => ?_
    split
    · exact Steps.pure
    · exact Steps.bind_left (steps_expect (by decide)).moves fun _ =>
        Steps.bind_left (signature_steps fuel).moves fun _ =>
          Steps.bind_left (steps_eat _) fun _ => prototypes_steps fuel n _

/-- An interface declaration consumes at least its name. -/
theorem interfaceDecl_steps (fuel : Nat) : Steps 1 (interfaceDecl fuel) := by
  unfold interfaceDecl
  refine Steps.bind_right steps_advance fun _ => Steps.bind_left (steps_expect (by decide)) fun _ => ?_
  refine Steps.bind_left (steps_expect (by decide)).moves fun _ =>
    Steps.bind_left (steps_expect (by decide)).moves fun _ => ?_
  refine Steps.bind_left steps_current fun _ => ?_
  dsimp only
  split
  · exact Steps.throw_bind
  refine Steps.bind_left steps_advance fun _ => Steps.bind_left (steps_withGenerics _ ?_) fun _ => ?_
  · exact Steps.bind_left (steps_expect (by decide)).moves fun _ =>
      Steps.bind_left (prototypes_steps fuel fuel []) fun _ =>
        Steps.bind_left (steps_expect (by decide)).moves fun _ => Steps.pure
  refine Steps.bind_left steps_freshId fun _ => ?_
  refine Steps.bind_left (Steps.forIn fun _ _ => Steps.bind_left (steps_declare _) fun _ =>
    Steps.pure) fun _ => ?_
  exact Steps.bind_left (steps_declare _) fun _ => Steps.pure

/-- A constructor of an enum consumes at least its name. -/
theorem ctorEntry_steps (fuel : Nat) : Steps 1 (ctorEntry fuel) := by
  unfold ctorEntry
  refine Steps.bind_left (steps_expect (by decide)) fun _ => Steps.bind_left (steps_eat _) fun _ => ?_
  extract_lets jp
  have hk : ∀ params, Steps 0 (jp params) := fun _ => Steps.pure
  split
  · exact Steps.bind_left (steps_delimited (typeExpr_steps fuel) (by decide) fuel []).moves hk
  · exact Steps.bind_left Steps.pure hk

/-- An enum declaration consumes at least its name. -/
theorem enumDecl_steps (fuel : Nat) : Steps 1 (enumDecl fuel) := by
  unfold enumDecl
  refine Steps.bind_right steps_advance fun _ => Steps.bind_left (steps_expect (by decide)) fun _ => ?_
  refine Steps.bind_left (genericParams_steps fuel) fun _ =>
    Steps.bind_left (steps_expect (by decide)).moves fun _ => ?_
  refine Steps.bind_left Steps.get fun _ => Steps.bind_left steps_freshId fun _ => ?_
  refine Steps.bind_left (steps_declare _) fun _ => ?_
  refine Steps.bind_left (steps_withGenerics _
    (steps_delimited (ctorEntry_steps fuel) (by decide) fuel [])).moves fun _ => ?_
  exact Steps.bind_left (Steps.forIn fun _ _ => Steps.bind_left steps_freshId fun _ =>
    Steps.bind_left (steps_declare _) fun _ => Steps.pure) fun _ => Steps.pure

/-- A pattern stays on the tokens. -/
theorem pattern_steps (fuel : Nat) : Steps 0 (pattern fuel) := by
  unfold pattern
  refine Steps.bind_left steps_current fun _ => ?_
  dsimp only
  split
  · exact Steps.throw_bind
  refine Steps.bind_left steps_advance fun _ => Steps.bind_left (steps_eat _) fun _ => ?_
  split
  · exact Steps.bind_left (steps_delimited steps_binding (by decide) fuel []).moves fun _ =>
      Steps.bind_left (steps_spanFrom _) fun _ => Steps.pure
  · exact Steps.bind_left Steps.pure fun _ => Steps.bind_left (steps_spanFrom _) fun _ => Steps.pure

end Declarations

/-- `advance` followed by a reader that only moves consumes the token, when it is not the end
mark. -/
theorem stepsAt_advance_then {α : Type} {k : TokenKind} {v : α} (hk : k ≠ .eof) :
    StepsAt k 1 (advance >>= fun _ => pure v) :=
  StepsAt.bind_left (stepsAt_advance hk) fun _ => Steps.pure

mutual

/-- **An expression consumes at least one token.** -/
theorem expr_steps : (fuel : Nat) → (bp : Power) → Steps 1 (expr fuel bp)
  | 0, _ => steps_outOfFuel
  | fuel + 1, bp => by
    unfold expr
    exact Steps.bind_left (start_steps fuel) fun left => extend_steps fuel bp left

/-- Operators and calls after a left operand stay on the tokens. -/
theorem extend_steps : (fuel : Nat) → (bp : Power) → (left : Node) → Steps 0 (extend fuel bp left)
  | 0, _, _ => steps_outOfFuel
  | fuel + 1, bp, left => by
    unfold extend
    refine Steps.bind_left steps_current fun _ => ?_
    dsimp only
    split
    · exact Steps.pure
    split
    · exact Steps.bind_left (callExpr_steps fuel left).moves fun n => extend_steps fuel bp n
    · exact Steps.bind_left (binaryExpr_steps fuel left _).moves fun n => extend_steps fuel bp n

/-- The start of an expression consumes at least one token. -/
theorem start_steps : (fuel : Nat) → Steps 1 (start fuel)
  | 0 => steps_outOfFuel
  | fuel + 1 => by
    unfold start
    refine Steps.current_bind fun _ => ?_
    split
    · exact Steps.toAt (primary_steps fuel)
    · exact Steps.toAt (primary_steps fuel)
    · exact Steps.toAt (primary_steps fuel)
    · exact Steps.toAt (prefixExpr_steps fuel)
    · exact Steps.toAt (prefixExpr_steps fuel)
    · exact Steps.toAt (grouping_steps fuel)
    · exact Steps.toAt (listExpr_steps fuel)
    · exact Steps.toAt (blockExpr_steps fuel)
    · exact Steps.toAt (ifExpr_steps fuel)
    · exact Steps.toAt (letExpr_steps fuel)
    · exact Steps.toAt (matchExpr_steps fuel)
    · exact Steps.toAt steps_unexpected

/-- A literal, a name or a constructor expression consumes at least one token. -/
theorem primary_steps : (fuel : Nat) → Steps 1 (primary fuel)
  | 0 => steps_outOfFuel
  | fuel + 1 => by
    unfold primary
    refine Steps.current_bind fun _ => ?_
    split
    · next h =>
      split
      · exact Steps.toAt Steps.throw
      · exact stepsAt_advance_then (by rw [h]; decide)
    · next h =>
      split
      · exact Steps.toAt (constructorExpr_steps fuel)
      · exact stepsAt_advance_then (by rw [h]; decide)
    · next h => exact stepsAt_advance_then (by rw [h]; decide)
    · exact Steps.toAt steps_unexpected

/-- The arguments of a call consume at least their opening parenthesis. -/
theorem arguments_steps : (fuel : Nat) → Steps 1 (arguments fuel)
  | 0 => steps_outOfFuel
  | fuel + 1 => by
    unfold arguments
    exact Steps.bind_left (steps_expect (by decide)) fun _ =>
      (steps_delimited (expr_steps fuel .default) (by decide) fuel []).moves

/-- A constructor expression consumes at least its name. -/
theorem constructorExpr_steps : (fuel : Nat) → Steps 1 (constructorExpr fuel)
  | 0 => steps_outOfFuel
  | fuel + 1 => by
    unfold constructorExpr
    refine Steps.bind_left (steps_expect (by decide)) fun _ =>
      Steps.bind_left steps_current fun _ => ?_
    extract_lets jp
    have hk : ∀ args, Steps 0 (jp args) := fun _ =>
      Steps.bind_left (steps_spanFrom _) fun _ => Steps.pure
    split
    · exact Steps.bind_left (arguments_steps fuel).moves hk
    · exact Steps.bind_left Steps.pure hk

/-- A binary operation consumes at least its right operand. -/
theorem binaryExpr_steps : (fuel : Nat) → (left : Node) → (bp : Power) →
    Steps 1 (binaryExpr fuel left bp)
  | 0, _, _ => steps_outOfFuel
  | fuel + 1, left, bp => by
    unfold binaryExpr
    exact Steps.bind_right steps_advance fun _ =>
      Steps.bind_left (expr_steps fuel bp) fun _ => Steps.pure

/-- A prefix operation consumes at least its operand. -/
theorem prefixExpr_steps : (fuel : Nat) → Steps 1 (prefixExpr fuel)
  | 0 => steps_outOfFuel
  | fuel + 1 => by
    unfold prefixExpr
    exact Steps.bind_right steps_advance fun _ =>
      Steps.bind_left (expr_steps fuel .unary) fun _ => Steps.pure

/-- An expression in parentheses consumes at least the expression. -/
theorem grouping_steps : (fuel : Nat) → Steps 1 (grouping fuel)
  | 0 => steps_outOfFuel
  | fuel + 1 => by
    unfold grouping
    exact Steps.bind_right steps_advance fun _ =>
      Steps.bind_left (expr_steps fuel .default) fun _ =>
        Steps.bind_left (steps_expect (by decide)).moves fun _ => Steps.pure

/-- A call consumes at least the parenthesis that opens its arguments. -/
theorem callExpr_steps : (fuel : Nat) → (callee : Node) → Steps 1 (callExpr fuel callee)
  | 0, _ => steps_outOfFuel
  | fuel + 1, callee => by
    unfold callExpr
    exact Steps.bind_left (arguments_steps fuel) fun _ =>
      Steps.bind_left (steps_spanFrom _) fun _ => Steps.pure

/-- A list expression consumes at least its closing bracket. -/
theorem listExpr_steps : (fuel : Nat) → Steps 1 (listExpr fuel)
  | 0 => steps_outOfFuel
  | fuel + 1 => by
    unfold listExpr
    exact Steps.bind_right steps_advance fun _ =>
      Steps.bind_left (steps_delimited (expr_steps fuel .default) (by decide) fuel []) fun _ =>
        Steps.bind_left (steps_spanFrom _) fun _ => Steps.pure

/-- A block consumes at least its opening brace. -/
theorem blockExpr_steps : (fuel : Nat) → Steps 1 (blockExpr fuel)
  | 0 => steps_outOfFuel
  | fuel + 1 => by
    unfold blockExpr
    exact Steps.bind_left (steps_expect (by decide)) fun _ =>
      Steps.bind_left (blockItems_steps fuel []) fun _ =>
        Steps.bind_left (steps_expect (by decide)).moves fun _ =>
          Steps.bind_left (steps_spanFrom _) fun _ => Steps.pure

/-- The items of a block stay on the tokens. -/
theorem blockItems_steps : (fuel : Nat) → (acc : List Node) → Steps 0 (blockItems fuel acc)
  | 0, _ => steps_outOfFuel
  | fuel + 1, acc => by
    unfold blockItems
    refine Steps.bind_left steps_current fun _ => ?_
    split
    · exact Steps.pure
    split
    · exact steps_unexpected
    exact Steps.bind_left (item_steps fuel).moves fun _ => blockItems_steps fuel _

/-- An `if` consumes at least its test. -/
theorem ifExpr_steps : (fuel : Nat) → Steps 1 (ifExpr fuel)
  | 0 => steps_outOfFuel
  | fuel + 1 => by
    unfold ifExpr
    refine Steps.bind_right steps_advance fun _ =>
      Steps.bind_left (expr_steps fuel .default) fun _ => ?_
    refine Steps.bind_left (blockExpr_steps fuel).moves fun _ =>
      Steps.bind_left (steps_eat _) fun _ => ?_
    extract_lets jp
    have hk : ∀ elseBody, Steps 0 (jp elseBody) := fun _ =>
      Steps.bind_left (steps_spanFrom _) fun _ => Steps.pure
    split
    · refine Steps.bind_left steps_current fun _ => ?_
      split
      · exact Steps.bind_left (Steps.map (ifExpr_steps fuel)).moves hk
      · exact Steps.bind_left (Steps.map (blockExpr_steps fuel)).moves hk
    · exact Steps.bind_left Steps.pure hk

/-- An assignment consumes at least its `=`. -/
theorem assignment_steps : (fuel : Nat) → Steps 1 (assignment fuel)
  | 0 => steps_outOfFuel
  | fuel + 1 => by
    unfold assignment
    refine Steps.bind_right steps_position fun _ => Steps.bind_right steps_current fun _ => ?_
    extract_lets jp
    -- the `=` after the name or the pattern is consumed whichever was read
    have hk : ∀ left, Steps 1 (jp left) := fun _ =>
      Steps.bind_left (steps_expect (by decide)) fun _ =>
        Steps.bind_left (expr_steps fuel .default).moves fun _ =>
          Steps.bind_left (steps_spanFrom _) fun _ => Steps.pure
    split
    · exact Steps.bind_right (pattern_steps fuel) hk
    · exact Steps.bind_right steps_binding.moves fun _ => Steps.bind_right Steps.pure hk

/-- The assignments after the first of a `let` stay on the tokens. -/
theorem moreAssignments_steps : (fuel : Nat) → (acc : List Node) →
    Steps 0 (moreAssignments fuel acc)
  | 0, _ => steps_outOfFuel
  | fuel + 1, acc => by
    unfold moreAssignments
    refine Steps.bind_left (steps_eat _) fun _ => ?_
    split
    · exact Steps.bind_left (assignment_steps fuel).moves fun _ => moreAssignments_steps fuel _
    · exact Steps.pure

/-- A `let` consumes at least its first assignment. -/
theorem letExpr_steps : (fuel : Nat) → Steps 1 (letExpr fuel)
  | 0 => steps_outOfFuel
  | fuel + 1 => by
    unfold letExpr
    refine Steps.bind_right steps_advance fun _ =>
      Steps.bind_left (assignment_steps fuel) fun _ => ?_
    exact Steps.bind_left (moreAssignments_steps fuel []) fun _ =>
      Steps.bind_left (blockExpr_steps fuel).moves fun _ =>
        Steps.bind_left (steps_spanFrom _) fun _ => Steps.pure

/-- A case of a `match` consumes at least the arrow after its pattern. -/
theorem caseExpr_steps : (fuel : Nat) → Steps 1 (caseExpr fuel)
  | 0 => steps_outOfFuel
  | fuel + 1 => by
    unfold caseExpr
    refine Steps.bind_right steps_position fun _ => Steps.bind_right (pattern_steps fuel) fun _ => ?_
    exact Steps.bind_left (steps_expect (by decide)) fun _ =>
      Steps.bind_left (expr_steps fuel .default).moves fun _ =>
        Steps.bind_left (steps_spanFrom _) fun _ => Steps.pure

/-- The cases of a `match` stay on the tokens. -/
theorem cases_steps : (fuel : Nat) → (acc : List Node) → Steps 0 (cases fuel acc)
  | 0, _ => steps_outOfFuel
  | fuel + 1, acc => by
    unfold cases
    refine Steps.bind_left steps_current fun _ => ?_
    split
    · exact Steps.pure
    · exact Steps.bind_left (caseExpr_steps fuel).moves fun _ =>
        Steps.bind_left (steps_eat _) fun _ => cases_steps fuel _

/-- A `match` consumes at least its subject. -/
theorem matchExpr_steps : (fuel : Nat) → Steps 1 (matchExpr fuel)
  | 0 => steps_outOfFuel
  | fuel + 1 => by
    unfold matchExpr
    refine Steps.bind_right steps_advance fun _ =>
      Steps.bind_left (expr_steps fuel .default) fun _ => ?_
    refine Steps.bind_left (steps_expect (by decide)).moves fun _ =>
      Steps.bind_left (cases_steps fuel []) fun _ => ?_
    exact Steps.bind_left (steps_expect (by decide)).moves fun _ =>
      Steps.bind_left (steps_spanFrom _) fun _ => Steps.pure

/-- **An item of a program consumes at least one token.** -/
theorem item_steps : (fuel : Nat) → Steps 1 (item fuel)
  | 0 => steps_outOfFuel
  | fuel + 1 => by
    unfold item
    refine Steps.bind_right steps_current fun _ => ?_
    split
    · exact fnDecl_steps fuel
    · exact externDecl_steps fuel
    · exact interfaceDecl_steps fuel
    · exact implDecl_steps fuel
    · exact enumDecl_steps fuel
    · exact Steps.bind_left (expr_steps fuel .default) fun _ =>
        Steps.bind_left (steps_eat _) fun _ => Steps.pure

/-- A function declaration consumes at least its signature. -/
theorem fnDecl_steps : (fuel : Nat) → Steps 1 (fnDecl fuel)
  | 0 => steps_outOfFuel
  | fuel + 1 => by
    unfold fnDecl
    refine Steps.bind_right steps_advance fun _ =>
      Steps.bind_left (signature_steps fuel) fun _ => ?_
    exact Steps.bind_left (blockExpr_steps fuel).moves fun _ =>
      Steps.bind_left (steps_declare _) fun _ =>
        Steps.bind_left (steps_spanFrom _) fun _ => Steps.pure

/-- An implementation block consumes at least the name of its interface. -/
theorem implDecl_steps : (fuel : Nat) → Steps 1 (implDecl fuel)
  | 0 => steps_outOfFuel
  | fuel + 1 => by
    unfold implDecl
    refine Steps.bind_right steps_advance fun _ =>
      Steps.bind_left (steps_expect (by decide)) fun _ => ?_
    refine Steps.bind_left Steps.get fun _ => ?_
    extract_lets jp
    have hk : ∀ iface, Steps 0 (jp iface) := fun iface => by
      refine Steps.bind_left (steps_expect (by decide)).moves fun _ =>
        Steps.bind_left steps_position fun _ => ?_
      refine Steps.bind_left (typeExpr_steps fuel).moves fun _ =>
        Steps.bind_left (steps_expect (by decide)).moves fun _ => ?_
      extract_lets jp'
      have hk' : ∀ key, Steps 0 (jp' key) := fun key => by
        refine Steps.bind_left Steps.get fun _ => ?_
        dsimp only
        split
        · exact Steps.throw_bind
        refine Steps.bind_left (steps_declare _) fun _ => ?_
        refine Steps.bind_left (steps_expect (by decide)).moves fun _ => ?_
        exact Steps.bind_left (implMethods_steps fuel iface _ key []) fun _ =>
          Steps.bind_left (steps_expect (by decide)).moves fun _ => Steps.pure
      split
      · exact Steps.bind_left Steps.pure hk'
      · exact Steps.throw_bind
    split
    · refine Steps.bind_left Steps.get fun _ => ?_
      split
      · exact Steps.bind_left Steps.pure hk
      · exact Steps.throw_bind
    · exact Steps.throw_bind

/-- The methods of an implementation block stay on the tokens. -/
theorem implMethods_steps : (fuel : Nat) → (iface : Iface) → (ty : Ty) → (key : String) →
    (acc : List Node) → Steps 0 (implMethods fuel iface ty key acc)
  | 0, _, _, _, _ => steps_outOfFuel
  | fuel + 1, iface, ty, key, acc => by
    unfold implMethods
    refine Steps.bind_left steps_current fun _ => ?_
    split
    · exact Steps.pure
    refine Steps.bind_left (steps_expect (by decide)).moves fun _ =>
      Steps.bind_left (steps_expect (by decide)).moves fun _ => ?_
    extract_lets _ jp
    have hk : ∀ method, Steps 0 (jp method) := fun _ => by
      refine Steps.bind_left (steps_expect (by decide)).moves fun _ => ?_
      refine Steps.bind_left (steps_delimited steps_binding (by decide) fuel []).moves fun _ => ?_
      refine Steps.bind_left (blockExpr_steps fuel).moves fun _ => ?_
      exact Steps.bind_left (steps_declare _) fun _ =>
        Steps.bind_left (steps_spanFrom _) fun _ => implMethods_steps fuel _ _ _ _
    split
    · exact Steps.bind_left Steps.pure hk
    · exact Steps.throw_bind

end

/-- The item loop of a program only moves forward, and never past the end mark. -/
theorem programItems_steps : (fuel : Nat) → (acc : List Node) → Steps 0 (programItems fuel acc)
  | 0, _ => steps_outOfFuel
  | fuel + 1, acc => by
    unfold programItems
    refine Steps.bind_left steps_current fun _ => ?_
    split
    · exact Steps.pure
    · exact Steps.bind_left (item_steps fuel).moves fun _ => programItems_steps fuel _

end Parse
end Verve
