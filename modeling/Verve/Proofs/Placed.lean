import Verve.Parse.Program

/-!
# Where the reader puts assignments

The grammar has assignments only at the head of a `let`: `let x = 1, P(y) = e { … }`. So
in a tree the reader builds, a node is an assignment only when it is one of the assignments
that a `let` opens with (`Node.Placed`, with `Node.PlacedHead` for those assignments).

Every reader of the grammar keeps to this, on every input: the value it returns, when it
returns one, is placed (`Parse.program_placed`). Each reader is proved from the readers it
calls, by recursion on the fuel that the readers themselves recurse on. `Parse.Yields r P`
says that every value `r` returns satisfies `P`, whatever the state it starts from.
-/

namespace Verve

namespace Node

mutual

/-- Assignments stand only at the head of a `let`: the node is not one, and every node
inside it is placed, except the assignments a `let` opens with, which are placed heads. -/
def Placed : Node → Prop
  | .mk f _ _ => FormPlaced f

/-- `Placed` of a node of this form. -/
def FormPlaced : Form → Prop
  | .str _ | .num _ | .ident _ | .pattern _ _ => True
  | .binary _ l r => Placed l ∧ Placed r
  | .unary _ o => Placed o
  | .func _ _ b => Placed b
  | .block xs | .list xs => ListPlaced xs
  | .call c as _ => Placed c ∧ ListPlaced as
  | .cond c t none => Placed c ∧ Placed t
  | .cond c t (some e) => Placed c ∧ Placed t ∧ Placed e
  | .matchOn v cs => Placed v ∧ ListPlaced cs
  | .case p b => Placed p ∧ Placed b
  | .letIn as b => HeadsPlaced as ∧ Placed b
  | .assign _ _ => False
  | .construct _ as => ListPlaced as

/-- An assignment at the head of a `let`, with both sides placed. -/
def PlacedHead : Node → Prop
  | .mk (.assign l v) _ _ => Placed l ∧ Placed v
  | .mk _ _ _ => False

/-- Every node of the list is placed. -/
def ListPlaced : List Node → Prop
  | [] => True
  | n :: ns => Placed n ∧ ListPlaced ns

/-- Every node of the list is a placed head. -/
def HeadsPlaced : List Node → Prop
  | [] => True
  | n :: ns => PlacedHead n ∧ HeadsPlaced ns

end

theorem listPlaced_iff {ns : List Node} : ListPlaced ns ↔ ∀ n ∈ ns, n.Placed := by
  induction ns with
  | nil => simp [ListPlaced]
  | cons n ns ih => simp [ListPlaced, ih]

theorem headsPlaced_iff {ns : List Node} : HeadsPlaced ns ↔ ∀ n ∈ ns, n.PlacedHead := by
  induction ns with
  | nil => simp [HeadsPlaced]
  | cons n ns ih => simp [HeadsPlaced, ih]

end Node

namespace Parse

/-- Every value that `r` returns satisfies `P`, whatever the state it starts from. -/
def Yields {α : Type} (r : Reader α) (P : α → Prop) : Prop :=
  ∀ s a s', r.run s = .ok (a, s') → P a

namespace Yields

variable {α β : Type} {P : β → Prop}

theorem pure {b : β} (h : P b) : Yields (Pure.pure b) P :=
  fun _ _ _ he => by cases he; exact h

theorem bind {m : Reader α} {f : α → Reader β} {Q : α → Prop} (hm : Yields m Q)
    (hf : ∀ a, Q a → Yields (f a) P) : Yields (m >>= f) P := by
  intro s b s'' h
  rw [StateT.run_bind] at h
  rcases hr : m.run s with e | ⟨a, s'⟩
  · rw [hr] at h
    cases h
  · rw [hr] at h
    exact hf a (hm s a s' hr) s' b s'' h

/-- What a step returns does not matter to what follows it. -/
theorem bind_any {m : Reader α} {f : α → Reader β} (hf : ∀ a, Yields (f a) P) :
    Yields (m >>= f) P :=
  bind (Q := fun _ => True) (fun _ _ _ _ => trivial) fun a _ => hf a

theorem throw {e : Located} : Yields (MonadExcept.throw e : Reader β) P :=
  fun _ _ _ he => by cases he

theorem mono {m : Reader β} {Q : β → Prop} (h : Yields m Q) (hq : ∀ b, Q b → P b) :
    Yields m P :=
  fun s b s' he => hq b (h s b s' he)

theorem map {m : Reader α} {f : α → β} (h : Yields m (fun a => P (f a))) :
    Yields (f <$> m) P := by
  intro s b s' he
  rw [StateT.run_map] at he
  rcases hr : m.run s with e | ⟨a, s''⟩
  · rw [hr] at he
    cases he
  · rw [hr] at he
    cases he
    exact h s a s'' hr

/-- Nothing after a fault runs. -/
theorem throw_bind {e : Located} {f : α → Reader β} : Yields (MonadExcept.throw e >>= f) P :=
  bind (Q := fun _ => False) throw fun _ h => h.elim

theorem unexpected : Yields (Parse.unexpected : Reader β) P :=
  bind_any fun _ => throw

theorem outOfFuel : Yields (Parse.outOfFuel : Reader β) P :=
  bind_any fun _ => throw

/-- Items read one after another, each satisfying `P`, all satisfy it. -/
theorem delimited {item : Reader β} (h : Yields item P) (close : TokenKind) :
    (fuel : Nat) → (acc : List β) → (∀ x ∈ acc, P x) →
      Yields (Parse.delimited item close fuel acc) (∀ x ∈ ·, P x)
  | 0, _, _ => outOfFuel
  | fuel + 1, acc, hacc => by
    unfold Parse.delimited
    refine bind_any fun _ => ?_
    split
    · exact bind_any fun _ => pure fun y hy => hacc y (List.mem_reverse.1 hy)
    · refine bind h fun x hx => bind_any fun _ => ?_
      have hall : ∀ y ∈ x :: acc, P y := by simpa [hx] using hacc
      split
      · exact delimited h close fuel (x :: acc) hall
      · exact bind_any fun _ => pure fun y hy => hall y (List.mem_reverse.1 hy)

end Yields

open Node

/-- A pattern is placed, whatever it binds. -/
theorem pattern_placed (fuel : Nat) : Yields (pattern fuel) Placed := by
  unfold pattern
  refine Yields.bind_any fun _ => ?_
  dsimp only
  split
  · exact Yields.throw_bind
  refine Yields.bind_any fun _ => Yields.bind_any fun _ => ?_
  split
  · refine Yields.bind_any fun _ => Yields.bind_any fun _ => ?_
    exact Yields.pure trivial
  · refine Yields.bind_any fun _ => Yields.bind_any fun _ => ?_
    exact Yields.pure trivial

/-- The declarations without bodies leave no node. -/
theorem externDecl_placed (fuel : Nat) : Yields (externDecl fuel) (∀ n ∈ ·, n.Placed) := by
  unfold externDecl
  refine Yields.bind_any fun _ => Yields.bind_any fun _ => Yields.bind_any fun _ => ?_
  exact Yields.bind_any fun _ => Yields.bind_any fun _ => Yields.pure nofun

theorem interfaceDecl_placed (fuel : Nat) : Yields (interfaceDecl fuel) (∀ n ∈ ·, n.Placed) := by
  unfold interfaceDecl
  refine Yields.bind_any fun _ => Yields.bind_any fun _ => Yields.bind_any fun _ => ?_
  refine Yields.bind_any fun _ => Yields.bind_any fun _ => ?_
  dsimp only
  split
  · exact Yields.throw_bind
  refine Yields.bind_any fun _ => Yields.bind_any fun _ => Yields.bind_any fun _ => ?_
  exact Yields.bind_any fun _ => Yields.bind_any fun _ => Yields.pure nofun

theorem enumDecl_placed (fuel : Nat) : Yields (enumDecl fuel) (∀ n ∈ ·, n.Placed) := by
  unfold enumDecl
  refine Yields.bind_any fun _ => Yields.bind_any fun _ => Yields.bind_any fun _ => ?_
  refine Yields.bind_any fun _ => Yields.bind_any fun _ => Yields.bind_any fun _ => ?_
  refine Yields.bind_any fun _ => Yields.bind_any fun _ => Yields.bind_any fun _ => ?_
  exact Yields.pure nofun

mutual

/-- **The reader places assignments at the heads of `let`s.** Every expression it reads is
placed. -/
theorem expr_placed : (fuel : Nat) → (bp : Power) → Yields (expr fuel bp) Placed
  | 0, _ => Yields.outOfFuel
  | fuel + 1, bp => by
    unfold expr
    exact Yields.bind (start_placed fuel) fun left h => extend_placed fuel bp left h

theorem extend_placed :
    (fuel : Nat) → (bp : Power) → (left : Node) → left.Placed → Yields (extend fuel bp left) Placed
  | 0, _, _, _ => Yields.outOfFuel
  | fuel + 1, bp, left, hl => by
    unfold extend
    refine Yields.bind_any fun _ => ?_
    dsimp only
    split
    · exact Yields.pure hl
    split
    · exact Yields.bind (callExpr_placed fuel left hl) fun n h => extend_placed fuel bp n h
    · exact Yields.bind (binaryExpr_placed fuel left _ hl) fun n h => extend_placed fuel bp n h

theorem start_placed : (fuel : Nat) → Yields (start fuel) Placed
  | 0 => Yields.outOfFuel
  | fuel + 1 => by
    unfold start
    refine Yields.bind_any fun _ => ?_
    split
    · exact primary_placed fuel
    · exact primary_placed fuel
    · exact primary_placed fuel
    · exact prefixExpr_placed fuel
    · exact prefixExpr_placed fuel
    · exact grouping_placed fuel
    · exact listExpr_placed fuel
    · exact blockExpr_placed fuel
    · exact ifExpr_placed fuel
    · exact letExpr_placed fuel
    · exact matchExpr_placed fuel
    · exact Yields.unexpected

theorem primary_placed : (fuel : Nat) → Yields (primary fuel) Placed
  | 0 => Yields.outOfFuel
  | fuel + 1 => by
    unfold primary
    refine Yields.bind_any fun _ => ?_
    split
    · split
      · exact Yields.throw
      · exact Yields.bind_any fun _ => Yields.pure trivial
    · split
      · exact constructorExpr_placed fuel
      · exact Yields.bind_any fun _ => Yields.pure trivial
    · exact Yields.bind_any fun _ => Yields.pure trivial
    · exact Yields.unexpected

theorem arguments_placed : (fuel : Nat) → Yields (arguments fuel) ListPlaced
  | 0 => Yields.outOfFuel
  | fuel + 1 => by
    unfold arguments
    refine Yields.bind_any fun _ => ?_
    exact (Yields.delimited (expr_placed fuel .default) .closeParen fuel [] nofun).mono
      fun _ h => listPlaced_iff.2 h

theorem constructorExpr_placed : (fuel : Nat) → Yields (constructorExpr fuel) Placed
  | 0 => Yields.outOfFuel
  | fuel + 1 => by
    unfold constructorExpr
    refine Yields.bind_any fun _ => Yields.bind_any fun _ => ?_
    extract_lets jp
    have hk : ∀ args, ListPlaced args → Yields (jp args) Placed := fun _ h =>
      Yields.bind_any fun _ => Yields.pure h
    split
    · exact Yields.bind (arguments_placed fuel) hk
    · exact Yields.bind (Yields.pure trivial) hk

theorem binaryExpr_placed : (fuel : Nat) → (left : Node) → (bp : Power) → left.Placed →
    Yields (binaryExpr fuel left bp) Placed
  | 0, _, _, _ => Yields.outOfFuel
  | fuel + 1, left, bp, hl => by
    unfold binaryExpr
    refine Yields.bind_any fun _ => ?_
    exact Yields.bind (expr_placed fuel bp) fun _ hr => Yields.pure ⟨hl, hr⟩

theorem prefixExpr_placed : (fuel : Nat) → Yields (prefixExpr fuel) Placed
  | 0 => Yields.outOfFuel
  | fuel + 1 => by
    unfold prefixExpr
    refine Yields.bind_any fun _ => ?_
    exact Yields.bind (expr_placed fuel .unary) fun _ h => Yields.pure h

theorem grouping_placed : (fuel : Nat) → Yields (grouping fuel) Placed
  | 0 => Yields.outOfFuel
  | fuel + 1 => by
    unfold grouping
    refine Yields.bind_any fun _ => ?_
    exact Yields.bind (expr_placed fuel .default) fun _ h => Yields.bind_any fun _ => Yields.pure h

theorem callExpr_placed : (fuel : Nat) → (callee : Node) → callee.Placed →
    Yields (callExpr fuel callee) Placed
  | 0, _, _ => Yields.outOfFuel
  | fuel + 1, callee, hc => by
    unfold callExpr
    exact Yields.bind (arguments_placed fuel) fun _ h => Yields.bind_any fun _ =>
      Yields.pure ⟨hc, h⟩

theorem listExpr_placed : (fuel : Nat) → Yields (listExpr fuel) Placed
  | 0 => Yields.outOfFuel
  | fuel + 1 => by
    unfold listExpr
    refine Yields.bind_any fun _ => ?_
    exact Yields.bind (Yields.delimited (expr_placed fuel .default) .closeBracket fuel [] nofun)
      fun _ h => Yields.bind_any fun _ => Yields.pure (listPlaced_iff.2 h)

theorem blockExpr_placed : (fuel : Nat) → Yields (blockExpr fuel) Placed
  | 0 => Yields.outOfFuel
  | fuel + 1 => by
    unfold blockExpr
    refine Yields.bind_any fun _ => ?_
    refine Yields.bind (blockItems_placed fuel [] nofun) fun _ h => ?_
    exact Yields.bind_any fun _ => Yields.bind_any fun _ => Yields.pure (listPlaced_iff.2 h)

theorem blockItems_placed : (fuel : Nat) → (acc : List Node) → (∀ n ∈ acc, n.Placed) →
    Yields (blockItems fuel acc) (∀ n ∈ ·, n.Placed)
  | 0, _, _ => Yields.outOfFuel
  | fuel + 1, acc, hacc => by
    unfold blockItems
    refine Yields.bind_any fun _ => ?_
    split
    · exact Yields.pure fun n hn => hacc n (List.mem_reverse.1 hn)
    split
    · exact Yields.unexpected
    refine Yields.bind (item_placed fuel) fun xs hxs => blockItems_placed fuel _ ?_
    intro n hn
    rcases List.mem_append.1 hn with h | h
    · exact hxs n (List.mem_reverse.1 h)
    · exact hacc n h

theorem ifExpr_placed : (fuel : Nat) → Yields (ifExpr fuel) Placed
  | 0 => Yields.outOfFuel
  | fuel + 1 => by
    unfold ifExpr
    refine Yields.bind_any fun _ => ?_
    refine Yields.bind (expr_placed fuel .default) fun test ht => ?_
    refine Yields.bind (blockExpr_placed fuel) fun thenBody htb => ?_
    refine Yields.bind_any fun _ => ?_
    extract_lets jp
    -- the `else` branch, if any, is an `if` or a block
    have hk : ∀ elseBody : Option Node, (∀ e, elseBody = some e → e.Placed) →
        Yields (jp elseBody) Placed := fun elseBody he => by
      refine Yields.bind_any fun _ => Yields.pure ?_
      cases elseBody with
      | none => exact ⟨ht, htb⟩
      | some e => exact ⟨ht, htb, he e rfl⟩
    have hsome : ∀ {r : Reader Node}, Yields r Placed →
        Yields (some <$> r) (fun o => ∀ e, o = some e → e.Placed) := fun hr =>
      Yields.map (hr.mono fun _ h _ he => by cases he; exact h)
    split
    · refine Yields.bind_any fun _ => ?_
      split
      · exact Yields.bind (hsome (ifExpr_placed fuel)) hk
      · exact Yields.bind (hsome (blockExpr_placed fuel)) hk
    · exact Yields.bind (Yields.pure nofun) hk

theorem assignment_placed : (fuel : Nat) → Yields (assignment fuel) PlacedHead
  | 0 => Yields.outOfFuel
  | fuel + 1 => by
    unfold assignment
    refine Yields.bind_any fun _ => Yields.bind_any fun _ => ?_
    extract_lets jp
    have hk : ∀ left : Node, left.Placed → Yields (jp left) PlacedHead := fun _ hl =>
      Yields.bind_any fun _ => Yields.bind (expr_placed fuel .default) fun _ hv =>
        Yields.bind_any fun _ => Yields.pure ⟨hl, hv⟩
    -- the left side is a pattern or a name
    split
    · exact Yields.bind (pattern_placed fuel) hk
    · exact Yields.bind_any fun _ => Yields.bind (Yields.pure trivial) hk

theorem moreAssignments_placed : (fuel : Nat) → (acc : List Node) → (∀ n ∈ acc, n.PlacedHead) →
    Yields (moreAssignments fuel acc) (∀ n ∈ ·, n.PlacedHead)
  | 0, _, _ => Yields.outOfFuel
  | fuel + 1, acc, hacc => by
    unfold moreAssignments
    refine Yields.bind_any fun _ => ?_
    split
    · refine Yields.bind (assignment_placed fuel) fun a ha => moreAssignments_placed fuel _ ?_
      intro n hn
      rcases List.mem_cons.1 hn with rfl | h
      · exact ha
      · exact hacc n h
    · exact Yields.pure fun n hn => hacc n (List.mem_reverse.1 hn)

theorem letExpr_placed : (fuel : Nat) → Yields (letExpr fuel) Placed
  | 0 => Yields.outOfFuel
  | fuel + 1 => by
    unfold letExpr
    refine Yields.bind_any fun _ => ?_
    refine Yields.bind (assignment_placed fuel) fun a ha => ?_
    refine Yields.bind (moreAssignments_placed fuel [] nofun) fun rest hrest => ?_
    refine Yields.bind (blockExpr_placed fuel) fun body hb => Yields.bind_any fun _ => ?_
    refine Yields.pure ⟨headsPlaced_iff.2 fun n hn => ?_, hb⟩
    rcases List.mem_cons.1 hn with rfl | h
    · exact ha
    · exact hrest n h

theorem caseExpr_placed : (fuel : Nat) → Yields (caseExpr fuel) Placed
  | 0 => Yields.outOfFuel
  | fuel + 1 => by
    unfold caseExpr
    refine Yields.bind_any fun _ => ?_
    refine Yields.bind (pattern_placed fuel) fun _ hp => Yields.bind_any fun _ => ?_
    exact Yields.bind (expr_placed fuel .default) fun _ hb => Yields.bind_any fun _ =>
      Yields.pure ⟨hp, hb⟩

theorem cases_placed : (fuel : Nat) → (acc : List Node) → (∀ n ∈ acc, n.Placed) →
    Yields (cases fuel acc) (∀ n ∈ ·, n.Placed)
  | 0, _, _ => Yields.outOfFuel
  | fuel + 1, acc, hacc => by
    unfold cases
    refine Yields.bind_any fun _ => ?_
    split
    · exact Yields.pure fun n hn => hacc n (List.mem_reverse.1 hn)
    refine Yields.bind (caseExpr_placed fuel) fun c hc => Yields.bind_any fun _ => ?_
    refine cases_placed fuel _ fun n hn => ?_
    rcases List.mem_cons.1 hn with rfl | h
    · exact hc
    · exact hacc n h

theorem matchExpr_placed : (fuel : Nat) → Yields (matchExpr fuel) Placed
  | 0 => Yields.outOfFuel
  | fuel + 1 => by
    unfold matchExpr
    refine Yields.bind_any fun _ => ?_
    refine Yields.bind (expr_placed fuel .default) fun _ hv => Yields.bind_any fun _ => ?_
    refine Yields.bind (cases_placed fuel [] nofun) fun _ hcs => Yields.bind_any fun _ => ?_
    exact Yields.bind_any fun _ => Yields.pure ⟨hv, listPlaced_iff.2 hcs⟩

theorem item_placed : (fuel : Nat) → Yields (item fuel) (∀ n ∈ ·, n.Placed)
  | 0 => Yields.outOfFuel
  | fuel + 1 => by
    unfold item
    refine Yields.bind_any fun _ => ?_
    split
    · exact fnDecl_placed fuel
    · exact externDecl_placed fuel
    · exact interfaceDecl_placed fuel
    · exact implDecl_placed fuel
    · exact enumDecl_placed fuel
    · refine Yields.bind (expr_placed fuel .default) fun e he => Yields.bind_any fun _ => ?_
      exact Yields.pure fun n hn => by
        rcases List.mem_singleton.1 hn with rfl
        exact he

theorem fnDecl_placed : (fuel : Nat) → Yields (fnDecl fuel) (∀ n ∈ ·, n.Placed)
  | 0 => Yields.outOfFuel
  | fuel + 1 => by
    unfold fnDecl
    refine Yields.bind_any fun _ => Yields.bind_any fun _ => ?_
    refine Yields.bind (blockExpr_placed fuel) fun _ hb => Yields.bind_any fun _ => ?_
    refine Yields.bind_any fun _ => Yields.pure fun n hn => ?_
    rcases List.mem_singleton.1 hn with rfl
    exact hb

theorem implDecl_placed : (fuel : Nat) → Yields (implDecl fuel) (∀ n ∈ ·, n.Placed)
  | 0 => Yields.outOfFuel
  | fuel + 1 => by
    unfold implDecl
    refine Yields.bind_any fun _ => Yields.bind_any fun _ => Yields.bind_any fun _ => ?_
    extract_lets jp
    -- what follows the interface does not depend on which interface it is
    have hk : ∀ iface, Yields (jp iface) (∀ n ∈ ·, n.Placed) := fun iface => by
      refine Yields.bind_any fun _ => Yields.bind_any fun _ => Yields.bind_any fun _ => ?_
      refine Yields.bind_any fun _ => ?_
      extract_lets jp'
      have hk' : ∀ key, Yields (jp' key) (∀ n ∈ ·, n.Placed) := fun key => by
        refine Yields.bind_any fun _ => ?_
        dsimp only
        split
        · exact Yields.throw_bind
        refine Yields.bind_any fun _ => Yields.bind_any fun _ => ?_
        refine Yields.bind (implMethods_placed fuel iface _ key [] nofun) fun _ h => ?_
        exact Yields.bind_any fun _ => Yields.pure h
      split
      · exact Yields.bind_any fun key => hk' key
      · exact Yields.throw_bind
    split
    · refine Yields.bind_any fun _ => ?_
      split
      · exact Yields.bind_any fun iface => hk iface
      · exact Yields.throw_bind
    · exact Yields.throw_bind

theorem implMethods_placed : (fuel : Nat) → (iface : Iface) → (ty : Ty) → (key : String) →
    (acc : List Node) → (∀ n ∈ acc, n.Placed) →
    Yields (implMethods fuel iface ty key acc) (∀ n ∈ ·, n.Placed)
  | 0, _, _, _, _, _ => Yields.outOfFuel
  | fuel + 1, iface, ty, key, acc, hacc => by
    unfold implMethods
    refine Yields.bind_any fun _ => ?_
    split
    · exact Yields.pure fun n hn => hacc n (List.mem_reverse.1 hn)
    refine Yields.bind_any fun _ => Yields.bind_any fun _ => ?_
    extract_lets _ jp
    have hk : ∀ method, Yields (jp method) (∀ n ∈ ·, n.Placed) := fun _ => by
      refine Yields.bind_any fun _ => Yields.bind_any fun _ => ?_
      refine Yields.bind (blockExpr_placed fuel) fun _ hb => ?_
      refine Yields.bind_any fun _ => Yields.bind_any fun _ => implMethods_placed fuel _ _ _ _ ?_
      intro n hn
      rcases List.mem_cons.1 hn with rfl | h
      · exact hb
      · exact hacc n h
    split
    · exact Yields.bind_any fun method => hk method
    · exact Yields.throw_bind

end

theorem programItems_placed : (fuel : Nat) → (acc : List Node) → (∀ n ∈ acc, n.Placed) →
    Yields (programItems fuel acc) (∀ n ∈ ·, n.Placed)
  | 0, _, _ => Yields.outOfFuel
  | fuel + 1, acc, hacc => by
    unfold programItems
    refine Yields.bind_any fun _ => ?_
    split
    · exact Yields.pure fun n hn => hacc n (List.mem_reverse.1 hn)
    refine Yields.bind (item_placed fuel) fun xs hxs => programItems_placed fuel _ ?_
    intro n hn
    rcases List.mem_append.1 hn with h | h
    · exact hxs n (List.mem_reverse.1 h)
    · exact hacc n h

/-- **Every program read has its assignments at the heads of `let`s.** -/
theorem program_placed {toks : Array Token} {d : Decls} {prog : Program}
    (h : program toks d = .ok prog) : prog.body.Placed := by
  unfold program at h
  dsimp only at h
  generalize hr : StateT.run _ _ = r at h
  rcases r with e | ⟨p, s'⟩
  · cases h
  · cases h
    refine (Yields.bind (P := fun p : Program => p.body.Placed)
      (programItems_placed _ [] nofun) fun items h => ?_) _ _ _ hr
    exact Yields.bind_any fun _ => Yields.bind_any fun _ => Yields.pure (listPlaced_iff.2 h)

end Parse

namespace Node

/-- A node of a placed tree is placed, or is one of the assignments a `let` opens with. -/
def Fits (n : Node) : Prop := n.Placed ∨ n.PlacedHead

mutual

theorem fits_preorderOnto : (n : Node) → n.Placed → ∀ acc, (∀ m ∈ acc, m.Fits) →
    ∀ m ∈ preorderOnto n acc, m.Fits
  | .mk f sp ty, hn, acc, hacc, m, hm => by
    rw [preorderOnto] at hm
    rcases List.mem_cons.1 hm with rfl | hm
    · exact .inl hn
    · exact fits_formPreorderOnto f hn acc hacc m hm
termination_by structural x => x

theorem fits_preorderOnto_head : (n : Node) → n.PlacedHead → ∀ acc, (∀ m ∈ acc, m.Fits) →
    ∀ m ∈ preorderOnto n acc, m.Fits
  | .mk (.assign l v) sp ty, ⟨hl, hv⟩, acc, hacc, m, hm => by
    rw [preorderOnto] at hm
    rcases List.mem_cons.1 hm with rfl | hm
    · exact .inr ⟨hl, hv⟩
    · rw [formPreorderOnto] at hm
      exact fits_preorderOnto l hl _ (fits_preorderOnto v hv acc hacc) m hm
termination_by structural x => x

theorem fits_formPreorderOnto : (f : Form) → FormPlaced f → ∀ acc, (∀ m ∈ acc, m.Fits) →
    ∀ m ∈ formPreorderOnto f acc, m.Fits
  | .str _, _, _, hacc, m, hm | .num _, _, _, hacc, m, hm | .ident _, _, _, hacc, m, hm
  | .pattern _ _, _, _, hacc, m, hm => by
    rw [formPreorderOnto] at hm
    exact hacc m hm
  | .binary _ l r, ⟨hl, hr⟩, acc, hacc, m, hm => by
    rw [formPreorderOnto] at hm
    exact fits_preorderOnto l hl _ (fits_preorderOnto r hr acc hacc) m hm
  | .unary _ o, ho, acc, hacc, m, hm => by
    rw [formPreorderOnto] at hm
    exact fits_preorderOnto o ho acc hacc m hm
  | .func _ _ b, hb, acc, hacc, m, hm => by
    rw [formPreorderOnto] at hm
    exact fits_preorderOnto b hb acc hacc m hm
  | .block xs, hxs, acc, hacc, m, hm | .list xs, hxs, acc, hacc, m, hm => by
    rw [formPreorderOnto] at hm
    exact fits_listPreorderOnto xs hxs acc hacc m hm
  | .call c as _, ⟨hc, has⟩, acc, hacc, m, hm => by
    rw [formPreorderOnto] at hm
    exact fits_preorderOnto c hc _ (fits_listPreorderOnto as has acc hacc) m hm
  | .cond c t none, ⟨hc, ht⟩, acc, hacc, m, hm => by
    rw [formPreorderOnto] at hm
    exact fits_preorderOnto c hc _ (fits_preorderOnto t ht acc hacc) m hm
  | .cond c t (some e), ⟨hc, ht, he⟩, acc, hacc, m, hm => by
    rw [formPreorderOnto] at hm
    exact fits_preorderOnto c hc _ (fits_preorderOnto t ht _ (fits_preorderOnto e he acc hacc)) m hm
  | .matchOn v cs, ⟨hv, hcs⟩, acc, hacc, m, hm => by
    rw [formPreorderOnto] at hm
    exact fits_preorderOnto v hv _ (fits_listPreorderOnto cs hcs acc hacc) m hm
  | .case p b, ⟨hp, hb⟩, acc, hacc, m, hm => by
    rw [formPreorderOnto] at hm
    exact fits_preorderOnto p hp _ (fits_preorderOnto b hb acc hacc) m hm
  | .letIn as b, ⟨has, hb⟩, acc, hacc, m, hm => by
    rw [formPreorderOnto] at hm
    exact fits_headsPreorderOnto as has _ (fits_preorderOnto b hb acc hacc) m hm
  | .construct _ as, has, acc, hacc, m, hm => by
    rw [formPreorderOnto] at hm
    exact fits_listPreorderOnto as has acc hacc m hm
termination_by structural x => x

theorem fits_listPreorderOnto : (ns : List Node) → ListPlaced ns → ∀ acc, (∀ m ∈ acc, m.Fits) →
    ∀ m ∈ listPreorderOnto ns acc, m.Fits
  | [], _, _, hacc, m, hm => by
    rw [listPreorderOnto] at hm
    exact hacc m hm
  | n :: ns, ⟨hn, hns⟩, acc, hacc, m, hm => by
    rw [listPreorderOnto] at hm
    exact fits_preorderOnto n hn _ (fits_listPreorderOnto ns hns acc hacc) m hm
termination_by structural x => x

theorem fits_headsPreorderOnto : (ns : List Node) → HeadsPlaced ns → ∀ acc, (∀ m ∈ acc, m.Fits) →
    ∀ m ∈ listPreorderOnto ns acc, m.Fits
  | [], _, _, hacc, m, hm => by
    rw [listPreorderOnto] at hm
    exact hacc m hm
  | n :: ns, ⟨hn, hns⟩, acc, hacc, m, hm => by
    rw [listPreorderOnto] at hm
    exact fits_preorderOnto_head n hn _ (fits_headsPreorderOnto ns hns acc hacc) m hm
termination_by structural x => x

end

/-- Every node of a placed tree is placed or a head of a `let`. -/
theorem fits_of_mem_preorder {n m : Node} (hn : n.Placed) (hm : m ∈ n.preorder) : m.Fits :=
  fits_preorderOnto n hn [] nofun m hm

end Node

end Verve
