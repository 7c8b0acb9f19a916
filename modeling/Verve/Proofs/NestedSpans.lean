import Verve.Proofs.Annotated
import Verve.Proofs.EnumScan
import Verve.Proofs.Placed

/-!
# Spans nest in source order

Every node the reader builds records the span of source bytes it was read from, and the
spans of a tree nest: a node starts no later than its first child, each child ends no later
than the next one starts, and the last ends no later than the node (`Node.Nests`). Spans are
built three ways: from the start of a node's first token to the end of the last token read
(`spanFrom`); from the start of the left operand, or of a prefix operator, to the end of the
right operand; and not at all for a parenthesised expression, which is its inner node.

`Parse.Laid s s' ns` says that the nodes `ns`, read from `s` to `s'`, lie one after another
between the start of the token at `s` and the end of the last token before `s'`, and that
each is nested and ends within the tokens. Every reader lays out what it returns
(`Parse.Lays`); the readers that go on from a node or a list read before them lay out what
they return together with it (`Parse.LaysAfter`). This needs token spans in reading order
(`Parse.Ordered`), which the scanner gives. So every program read from a source has nested
spans within the source, and its root block spans from 0 to the end of the last token before
the end mark (`Parse.program_spans_nest`).
-/

namespace Verve

namespace Node

/-- The start and the end of each span of a list of nodes, in order. -/
def marks (ns : List Node) : List Nat := ns.flatMap fun n => [n.span.start, n.span.stop]

/-- A node's span holds its children's in their order: its start, the start and end of each
child, then its end never decrease. -/
def Nests (n : Node) : Prop :=
  (n.span.start :: marks n.children ++ [n.span.stop]).IsChain (· ≤ ·)

/-- A nested node starts no later than it ends. -/
theorem Nests.start_le_stop {n : Node} (h : n.Nests) : n.span.start ≤ n.span.stop :=
  (List.pairwise_cons.1 h.pairwise).1 _ (by simp)

/-- Nodes between `lo` and `hi`, each ending before the next starts, chain their bounds from
`lo` to `hi`. -/
theorem isChain_marks (hi : Nat) : ∀ (lo : Nat) (ns : List Node),
    (∀ n ∈ ns, lo ≤ n.span.start ∧ n.span.start ≤ n.span.stop ∧ n.span.stop ≤ hi) →
    ns.Pairwise (fun a b => a.span.stop ≤ b.span.start) → lo ≤ hi →
    (lo :: marks ns ++ [hi]).IsChain (· ≤ ·)
  | _, [], _, _, h => List.isChain_cons_cons.2 ⟨h, .singleton _⟩
  | lo, n :: ns, hb, hp, _ => by
    obtain ⟨h1, h2, h3⟩ := hb n (by simp)
    obtain ⟨hn, hp'⟩ := List.pairwise_cons.1 hp
    -- the rest chains from the end of `n`
    have ih := isChain_marks hi n.span.stop ns
      (fun m hm => ⟨hn m hm, (hb m (by simp [hm])).2⟩) hp' h3
    simpa [marks, List.isChain_cons_cons, h1, h2] using ih

section All

variable {P : Node → Prop}

/-- A property holds of every node inside a list of nodes exactly when it holds of every node inside
each. -/
theorem listAll_iff : ∀ {ns : List Node}, ListAll P ns ↔ ∀ n ∈ ns, n.All P := by
  intro ns
  induction ns with
  | nil => simp [ListAll]
  | cons n ns ih => simp [ListAll, ih]

/-- `All P` of a node is `P` of it and `All P` of each of its children. -/
theorem all_iff_children {n : Node} : n.All P ↔ P n ∧ ∀ c ∈ n.children, c.All P := by
  obtain ⟨f, sp, ty⟩ := n
  simp only [All]
  rcases f with _ | _ | _ | _ | _ | _ | _ | _ | ⟨_, _, _ | _⟩ | _ | _ | _ | _ | _ | _ | _ <;>
    simp [FormAll, children, form, listAll_iff, or_imp, forall_and]

end All

end Node

namespace Parse

/-! ## Token spans in order -/

/-- Token spans in reading order: each token starts no later than it ends, and ends no later
than any later token starts. -/
structure Ordered (toks : Array Token) : Prop where
  start_le_stop : ∀ i, (tokenAt toks i).span.start ≤ (tokenAt toks i).span.stop
  stop_le_start : ∀ i j, i < j → j < toks.size →
    (tokenAt toks i).span.stop ≤ (tokenAt toks j).span.start

/-- Where the token at `i` starts. -/
def startAt (toks : Array Token) (i : Nat) : Nat := (tokenAt toks i).span.start

/-- Where the tokens before `i` end: the end of the token at `i - 1`, or `0` before any. -/
def endBefore (toks : Array Token) (i : Nat) : Nat :=
  if i = 0 then 0 else (tokenAt toks (i - 1)).span.stop

/-- Past the first token, the tokens before `i + 1` end where the token at `i` ends. -/
@[simp] theorem endBefore_succ (toks : Array Token) (i : Nat) :
    endBefore toks (i + 1) = (tokenAt toks i).span.stop := by
  simp [endBefore]

namespace Ordered

variable {toks : Array Token} {i j : Nat}

/-- In token spans in order, a later token starts no earlier. -/
theorem startAt_le_startAt (ho : Ordered toks) (hij : i ≤ j) (hj : j < toks.size) :
    startAt toks i ≤ startAt toks j := by
  rcases Nat.lt_or_eq_of_le hij with h | rfl
  · exact (ho.start_le_stop i).trans (ho.stop_le_start i j h hj)
  · exact Nat.le_refl _

/-- In token spans in order, the tokens before a later index end no earlier. -/
theorem endBefore_le_endBefore (ho : Ordered toks) (hij : i ≤ j) (hj : j ≤ toks.size) :
    endBefore toks i ≤ endBefore toks j := by
  by_cases hi : i = 0
  · simp [endBefore, hi]
  · have hj0 : j ≠ 0 := by omega
    simp only [endBefore, hi, hj0, if_false]
    rcases Nat.lt_or_eq_of_le (Nat.sub_le_sub_right hij 1) with h | h
    · exact (ho.stop_le_start _ _ h (by omega)).trans (ho.start_le_stop _)
    · rw [h]

/-- In token spans in order, the tokens before an index end no later than the token at that index,
or a later one, starts. -/
theorem endBefore_le_startAt (ho : Ordered toks) (hij : i ≤ j) (hj : j < toks.size) :
    endBefore toks i ≤ startAt toks j := by
  by_cases hi : i = 0
  · simp [endBefore, hi]
  · simp only [endBefore, hi, if_false]
    exact ho.stop_le_start _ _ (by omega) hj

/-- In token spans in order, a token starts no later than the tokens up to and including it end. -/
theorem startAt_le_endBefore (ho : Ordered toks) (hij : i < j) (hj : j ≤ toks.size) :
    startAt toks i ≤ endBefore toks j := by
  have hj0 : j ≠ 0 := by omega
  simp only [endBefore, hj0, if_false]
  exact (ho.startAt_le_startAt (Nat.le_sub_one_of_lt hij) (by omega)).trans (ho.start_le_stop _)

end Ordered

/-! ## Nodes laid out over the tokens read -/

/-- Every node inside `n` nests, and ends within the tokens. -/
def Nested (toks : Array Token) (n : Node) : Prop :=
  n.All fun m => m.Nests ∧ m.span.stop ≤ endBefore toks toks.size

/-- A node whose every node inside nests nests itself. -/
theorem Nested.nests {toks : Array Token} {n : Node} (h : Nested toks n) : n.Nests :=
  (Node.all_iff_children.1 h).1.1

/-- The nodes `ns`, read from `s` to `s'`, lie one after another in the bytes of the tokens
read: each between the start of the token at `s` and the end of the last token before `s'`,
each ending before the next starts, and each nested. The run ends sound, on the same tokens,
not before `s`. -/
structure Laid (s s' : State) (ns : List Node) : Prop where
  sound : Sound s'
  tokens : s'.tokens = s.tokens
  le : s.pos ≤ s'.pos
  bounds : ∀ n ∈ ns,
    startAt s.tokens s.pos ≤ n.span.start ∧ n.span.stop ≤ endBefore s.tokens s'.pos
  ordered : ns.Pairwise fun a b => a.span.stop ≤ b.span.start
  nested : ∀ n ∈ ns, Nested s.tokens n

namespace Laid

variable {s s₁ s' : State} {ns ms : List Node}

/-- A run that reads no node lays out nothing. -/
theorem nil (hs : Sound s') (ht : s'.tokens = s.tokens) (hle : s.pos ≤ s'.pos) : Laid s s' [] :=
  ⟨hs, ht, hle, by simp, .nil, by simp⟩

/-- A reader that reads no node moves on. -/
theorem of_steps {α : Type} {c : Nat} {m : Reader α} {a : α} (hm : Steps c m) (hs : Sound s)
    (h : m.run s = .ok (a, s')) : Laid s s' [] :=
  have hr := hm s hs a s' h
  nil (hs.moved hr.1 hr.2.2) hr.1 (by omega)

/-- A run that lays out nodes ends on the tokens it started on. -/
theorem lt_size (h : Laid s s' ns) : s'.pos < s.tokens.size :=
  h.tokens ▸ h.sound.pos_lt

/-- A node laid out starts no earlier than the first token read. -/
theorem start_le {n : Node} (h : Laid s s' ns) (hn : n ∈ ns) :
    startAt s.tokens s.pos ≤ n.span.start :=
  (h.bounds n hn).1

/-- A node laid out ends no later than the last token read. -/
theorem stop_le {n : Node} (h : Laid s s' ns) (hn : n ∈ ns) :
    n.span.stop ≤ endBefore s.tokens s'.pos :=
  (h.bounds n hn).2

/-- A node laid out starts no later than it ends. -/
theorem start_le_stop {n : Node} (h : Laid s s' ns) (hn : n ∈ ns) :
    n.span.start ≤ n.span.stop :=
  (h.nested n hn).nests.start_le_stop

/-- Nodes read one after another lie one after another. -/
theorem append (h₁ : Laid s s₁ ns) (ho : Ordered s.tokens) (h₂ : Laid s₁ s' ms) :
    Laid s s' (ns ++ ms) := by
  obtain ⟨hs₂, ht₂, hle₂, hb₂, ho₂, hn₂⟩ := h₂
  rw [h₁.tokens] at hb₂ hn₂ ht₂
  have hlt₁ := h₁.lt_size
  have hle' : s'.pos ≤ s.tokens.size := by rw [← ht₂]; exact hs₂.pos_lt.le
  refine ⟨hs₂, ht₂, h₁.le.trans hle₂, fun n hn => ?_, ?_, fun n hn => ?_⟩
  · rcases List.mem_append.1 hn with hn | hn
    · exact ⟨h₁.start_le hn, (h₁.stop_le hn).trans (ho.endBefore_le_endBefore hle₂ hle')⟩
    · exact ⟨(ho.startAt_le_startAt h₁.le hlt₁).trans (hb₂ n hn).1, (hb₂ n hn).2⟩
  · refine List.pairwise_append.2 ⟨h₁.ordered, ho₂, fun a ha b hb => ?_⟩
    -- `a` ends before the first token that `ms` was read from, `b` starts after it
    calc a.span.stop ≤ endBefore s.tokens s₁.pos := h₁.stop_le ha
      _ ≤ startAt s.tokens s₁.pos := ho.endBefore_le_startAt (Nat.le_refl _) hlt₁
      _ ≤ b.span.start := (hb₂ b hb).1
  · rcases List.mem_append.1 hn with hn | hn
    · exact h₁.nested n hn
    · exact hn₂ n hn

/-- What was read lies within what has been read when reading has gone on. -/
theorem skip {α : Type} {c : Nat} {m : Reader α} {a : α} (h : Laid s s₁ ns)
    (ho : Ordered s.tokens) (hm : Steps c m) (hr : m.run s₁ = .ok (a, s')) : Laid s s' ns := by
  simpa using h.append ho (of_steps hm h.sound hr)

/-- A node whose children were read from `s` to `s'` nests when its span holds theirs and ends
within the tokens read. -/
theorem nested_of_children {n : Node} (hc : Laid s s' n.children) (ho : Ordered s.tokens)
    (hhi : n.span.stop ≤ endBefore s.tokens s'.pos) (hn : n.span.start ≤ n.span.stop)
    (hin : ∀ c ∈ n.children, n.span.start ≤ c.span.start ∧ c.span.stop ≤ n.span.stop) :
    Nested s.tokens n := by
  rw [Nested, Node.all_iff_children]
  refine ⟨⟨Node.isChain_marks _ _ _ (fun c h => ⟨(hin c h).1, hc.start_le_stop h, (hin c h).2⟩)
    hc.ordered hn, ?_⟩, hc.nested⟩
  exact hhi.trans (ho.endBefore_le_endBefore hc.lt_size.le (Nat.le_refl _))

/-- A node read from `s` to `s'` from its children, whose span lies within the tokens read
and holds the children's. -/
theorem wrap {n : Node} (hc : Laid s s' n.children) (ho : Ordered s.tokens)
    (hlo : startAt s.tokens s.pos ≤ n.span.start) (hhi : n.span.stop ≤ endBefore s.tokens s'.pos)
    (hn : n.span.start ≤ n.span.stop)
    (hin : ∀ c ∈ n.children, n.span.start ≤ c.span.start ∧ c.span.stop ≤ n.span.stop) :
    Laid s s' [n] where
  sound := hc.sound
  tokens := hc.tokens
  le := hc.le
  bounds m hm := by
    rw [List.mem_singleton.1 hm]
    exact ⟨hlo, hhi⟩
  ordered := List.pairwise_singleton _ _
  nested m hm := by
    rw [List.mem_singleton.1 hm]
    exact hc.nested_of_children ho hhi hn hin

/-- A node spanning from the start of the token at `s` to the end of the last token before
`s'`, read with its children from `s` to `s'`, at least one token on. -/
theorem enclose {f : Form} {ty : Option Ty}
    (hc : Laid s s' (Node.mk f ⟨startAt s.tokens s.pos, endBefore s.tokens s'.pos⟩ ty).children)
    (ho : Ordered s.tokens) (hlt : s.pos < s'.pos) :
    Laid s s' [.mk f ⟨startAt s.tokens s.pos, endBefore s.tokens s'.pos⟩ ty] :=
  hc.wrap ho (Nat.le_refl _) (Nat.le_refl _) (ho.startAt_le_endBefore hlt hc.lt_size.le)
    fun _ h => hc.bounds _ h

/-- A node spanning from its first token, consumed at `s`, to the last token read, with its
children read after that token. -/
theorem enclose_next {f : Form} {ty : Option Ty}
    (hc : Laid { s with pos := s.pos + 1 } s'
      (Node.mk f ⟨startAt s.tokens s.pos, endBefore s.tokens s'.pos⟩ ty).children)
    (ho : Ordered s.tokens) (hs₁ : Sound { s with pos := s.pos + 1 }) :
    Laid s s' [.mk f ⟨startAt s.tokens s.pos, endBefore s.tokens s'.pos⟩ ty] :=
  (by simpa using (nil hs₁ rfl (Nat.le_succ _) : Laid s _ []).append ho hc : Laid s s' _).enclose
    ho (by have := hc.le; simp at this; omega)

/-- A leaf that spans the one token read. -/
theorem token (ho : Ordered s.tokens) {f : Form} {ty : Option Ty}
    (hs : Sound { s with pos := s.pos + 1 })
    (hf : (Node.mk f (tokenAt s.tokens s.pos).span ty).children = []) :
    Laid s { s with pos := s.pos + 1 } [.mk f (tokenAt s.tokens s.pos).span ty] :=
  wrap (hf ▸ nil hs rfl (Nat.le_succ _)) ho (Nat.le_refl _) (by simp [Node.span])
    (ho.start_le_stop _) (by simp [hf])

/-- The first of nodes read one after another starts first. -/
theorem head_le {a : Node} (h : Laid s s' (a :: ns)) :
    ∀ c ∈ a :: ns, a.span.start ≤ c.span.start := by
  intro c hc
  rcases List.mem_cons.1 hc with rfl | hc
  · exact Nat.le_refl _
  · exact (h.start_le_stop (List.mem_cons_self ..)).trans ((List.pairwise_cons.1 h.ordered).1 c hc)

/-- The last of nodes read one after another ends last. -/
theorem le_last {z : Node} (h : Laid s s' (ns ++ [z])) :
    ∀ c ∈ ns ++ [z], c.span.stop ≤ z.span.stop := by
  intro c hc
  rcases List.mem_append.1 hc with hc | hc
  · have hz := (List.pairwise_append.1 h.ordered).2.2 c hc z (List.mem_singleton_self z)
    exact hz.trans (h.start_le_stop (List.mem_append_right _ (List.mem_singleton_self z)))
  · rw [List.mem_singleton.1 hc]

/-- What was read lies within what has been read when a reader goes on from it. -/
theorem read {α : Type} {f : α → List Node} {r : Reader α} {a : α} (h : Laid s s₁ ns)
    (ho : Ordered s.tokens) (hr : ∀ s, Sound s → Ordered s.tokens → ∀ a s', r.run s = .ok (a, s') →
      Laid s s' (f a)) (hrun : r.run s₁ = .ok (a, s')) : Laid s s' (ns ++ f a) :=
  h.append ho (hr s₁ h.sound (h.tokens ▸ ho) a s' hrun)

end Laid

/-! ## Readers lay out what they read -/

/-- Every run of `r` from a sound state on tokens in order lays out the nodes `f a` of the
value `a` it returns. -/
def Lays {α : Type} (f : α → List Node) (r : Reader α) : Prop :=
  ∀ s, Sound s → Ordered s.tokens → ∀ a s', r.run s = .ok (a, s') → Laid s s' (f a)

/-- Every run of `r` that goes on from the nodes `pre`, laid out from `s₀` to where `r` starts,
lays out the nodes `f a` of what it returns from `s₀` to where it ends. -/
def LaysAfter {α : Type} (pre : List Node) (f : α → List Node) (r : Reader α) : Prop :=
  ∀ s₀ s, Laid s₀ s pre → Ordered s₀.tokens → ∀ a s', r.run s = .ok (a, s') → Laid s₀ s' (f a)

section Combinators

variable {α β : Type} {pre : List Node} {f : α → List Node} {g : β → List Node}

namespace Lays

/-- A reader that gives up on an unexpected token returns nothing to lay out. -/
theorem unexpected : Lays g (Parse.unexpected : Reader β) :=
  fun _ _ _ _ _ h => absurd h unexpected_ne_ok

/-- A reader out of fuel returns nothing to lay out. -/
theorem outOfFuel : Lays g (Parse.outOfFuel : Reader β) :=
  fun _ _ _ _ _ h => absurd h outOfFuel_ne_ok

/-- What a reader lays out goes on from what was laid out before it. -/
theorem after {r : Reader α} (h : Lays f r) : LaysAfter pre (fun a => pre ++ f a) r :=
  fun _ _ hl ho _ _ hr => hl.read ho h hr

/-- Nothing after a fault runs. -/
theorem throw_bind {e : Located} {k : α → Reader β} : Lays g (MonadExcept.throw e >>= k) :=
  fun _ _ _ _ _ h => by cases h

/-- A reader that moves on and returns no node lays out nothing. -/
theorem of_nil {c : Nat} {r : Reader (List Node)} (hm : Steps c r) (hy : Yields r (· = [])) :
    Lays id r := by
  intro s hs _ a s' h
  rw [id, hy s a s' h]
  exact Laid.of_steps hm hs h

/-- Reading an optional node lays it out when there is one. -/
theorem map_some {r : Reader Node} (h : Lays ([·]) r) : Lays Option.toList (some <$> r) := by
  intro s hs ho o s' hr
  rw [StateT.run_map] at hr
  rcases hm : r.run s with e | ⟨n, s''⟩
  · rw [hm] at hr
    cases hr
  · rw [hm] at hr
    cases hr
    exact h s hs ho n s'' hm

/-- A reader that lays out what it reads after nothing lays it out. -/
theorem of_after {r : Reader α} (h : LaysAfter [] f r) : Lays f r :=
  fun s hs ho a s' hr => h s s (Laid.nil hs rfl (Nat.le_refl _)) ho a s' hr

/-- A reader followed by readers that each go on from what it laid out lays out what they lay out.
-/
theorem bind {m : Reader α} {k : α → Reader β} (hm : Lays f m)
    (hk : ∀ a, LaysAfter (f a) g (k a)) : Lays g (m >>= k) := by
  intro s hs ho b s' h
  obtain ⟨a, s₁, h₁, h₂⟩ := run_bind_eq_ok h
  exact hk a s s₁ (hm s hs ho a s₁ h₁) ho b s' h₂

/-- A step that reads no node comes before what is laid out. -/
theorem skip {c : Nat} {m : Reader α} {k : α → Reader β} (hm : Steps c m)
    (hk : ∀ a, Lays g (k a)) : Lays g (m >>= k) := by
  intro s hs ho b s' h
  obtain ⟨a, s₁, h₁, h₂⟩ := run_bind_eq_ok h
  have hl₁ := Laid.of_steps hm hs h₁
  simpa using hl₁.read ho (hk a) h₂

/-- Looking at the current token first, the rest may use what it is. -/
theorem current_bind {k : Token → Reader β} (hk : ∀ t, Lays g (k t)) :
    Lays g (current >>= k) := by
  intro s hs ho b s' h
  rw [run_bind_ok (run_current s)] at h
  exact hk _ s hs ho b s' h

end Lays

namespace LaysAfter

/-- A reader that gives up on an unexpected token returns nothing to lay out. -/
theorem unexpected : LaysAfter pre g (Parse.unexpected : Reader β) :=
  fun _ _ _ _ _ _ h => absurd h unexpected_ne_ok

/-- A reader out of fuel returns nothing to lay out. -/
theorem outOfFuel : LaysAfter pre g (Parse.outOfFuel : Reader β) :=
  fun _ _ _ _ _ _ h => absurd h outOfFuel_ne_ok

/-- Returning the nodes already laid out lays them out. -/
theorem pure {a : α} (h : f a = pre) : LaysAfter pre f (Pure.pure a) := by
  intro s₀ s hl _ b s' hr
  obtain ⟨rfl, rfl⟩ := run_pure_eq_ok hr
  rwa [h]

/-- A reader that goes on from what was laid out, followed by readers that go on from what it laid
out, lays out what they lay out. -/
theorem bind {m : Reader α} {k : α → Reader β} (hm : LaysAfter pre f m)
    (hk : ∀ a, LaysAfter (f a) g (k a)) : LaysAfter pre g (m >>= k) := by
  intro s₀ s hl ho b s' h
  obtain ⟨a, s₁, h₁, h₂⟩ := run_bind_eq_ok h
  exact hk a s₀ s₁ (hm s₀ s hl ho a s₁ h₁) ho b s' h₂

/-- A step that reads no node only moves the end of what has been read. -/
theorem skip {c : Nat} {m : Reader α} {k : α → Reader β} (hm : Steps c m)
    (hk : ∀ a, LaysAfter pre g (k a)) : LaysAfter pre g (m >>= k) := by
  intro s₀ s hl ho b s' h
  obtain ⟨a, s₁, h₁, h₂⟩ := run_bind_eq_ok h
  exact hk a s₀ s₁ (hl.skip ho hm h₁) ho b s' h₂

/-- Looking at the current token first, the rest may use what it is. -/
theorem current_bind {k : Token → Reader β} (hk : ∀ t, LaysAfter pre g (k t)) :
    LaysAfter pre g (current >>= k) := by
  intro s₀ s hl ho b s' h
  rw [run_bind_ok (run_current s)] at h
  exact hk _ s₀ s hl ho b s' h

/-- Nodes read one after another up to a closing token lie one after another, after those
read before. -/
theorem delimited {item : Reader Node} (h : Lays ([·]) item) {close : TokenKind}
    (hclose : close ≠ .eof) : (fuel : Nat) → (acc : List Node) →
    LaysAfter acc.reverse id (Parse.delimited item close fuel acc) := by
  intro fuel
  induction fuel with
  | zero => exact fun _ => outOfFuel
  | succ fuel ih =>
    intro acc
    unfold Parse.delimited
    refine current_bind fun _ => ?_
    split
    · exact skip steps_advance fun _ => pure rfl
    · have hx : ∀ x : Node, (x :: acc).reverse = acc.reverse ++ [x] := by simp
      refine bind h.after fun x => skip (steps_eat _) fun _ => ?_
      split
      · exact hx x ▸ ih (x :: acc)
      · exact skip (steps_expect hclose) fun _ => pure (hx x)

end LaysAfter

end Combinators

/-! ## Steps of one token -/

section Steps

variable {s s' : State}

/-- `advance` returns the current token and moves on, by one unless at the end mark. -/
theorem advance_laid {t : Token} (hs : Sound s) (h : advance.run s = .ok (t, s')) :
    t = tokenAt s.tokens s.pos ∧ Laid s s' [] := by
  have hl := Laid.of_steps steps_advance hs h
  rw [run_advance] at h
  cases h
  exact ⟨rfl, hl⟩

/-- Taking the position returns where the current token starts. -/
theorem run_position (s : State) : position.run s = .ok (startAt s.tokens s.pos, s) := rfl

/-- Past the first token, the span read so far ends at the end of the last token read. -/
theorem run_spanFrom_of_pos {toks : Array Token} (start : Nat) (ht : s.tokens = toks)
    (hp : 0 < s.pos) : (spanFrom start).run s = .ok (⟨start, endBefore toks s.pos⟩, s) := by
  subst ht
  simp [spanFrom, endBefore, Nat.pos_iff_ne_zero.1 hp]
  rfl

/-- A node built on the span read so far: past the first token, the span ends at the end of
the last token read. -/
theorem spanFrom_pure_eq {γ : Type} {toks : Array Token} {start : Nat} {g : Span → γ} {b : γ}
    (ht : s.tokens = toks)
    (h : (spanFrom start >>= fun sp => pure (g sp)).run s = .ok (b, s')) :
    s' = s ∧ (0 < s.pos → b = g ⟨start, endBefore toks s.pos⟩) := by
  obtain ⟨sp, hsp⟩ := run_spanFrom start s
  have hs' : s' = s := by
    rw [run_bind_ok hsp] at h
    exact (run_pure_eq_ok h).2.symm
  refine ⟨hs', fun hp => ?_⟩
  rw [run_bind_ok (run_spanFrom_of_pos start ht hp)] at h
  exact (run_pure_eq_ok h).1.symm

/-- A node built on the span read since its first token at `s`, at least one token on,
encloses the nodes read for its children. -/
theorem spanFrom_encloses {s₁ : State} {f : Form} {ty : Option Ty} {n : Node}
    (hc : Laid s s₁ (Node.mk f ⟨startAt s.tokens s.pos, endBefore s.tokens s₁.pos⟩ ty).children)
    (ho : Ordered s.tokens) (hlt : s.pos < s'.pos)
    (h : (spanFrom (startAt s.tokens s.pos) >>= fun sp => pure (Node.mk f sp ty)).run s₁ =
      .ok (n, s')) : Laid s s' [n] := by
  obtain ⟨rfl, hb⟩ := spanFrom_pure_eq hc.tokens h
  obtain rfl := hb (by omega)
  exact hc.enclose ho hlt

/-- A node built on the span read since its first token, consumed at `s`, encloses the nodes
read after that token for its children. -/
theorem spanFrom_encloses_next {s₁ : State} {f : Form} {ty : Option Ty} {n : Node}
    (hc : Laid { s with pos := s.pos + 1 } s₁
      (Node.mk f ⟨startAt s.tokens s.pos, endBefore s.tokens s₁.pos⟩ ty).children)
    (ho : Ordered s.tokens) (hs₁ : Sound { s with pos := s.pos + 1 })
    (h : (spanFrom (startAt s.tokens s.pos) >>= fun sp => pure (Node.mk f sp ty)).run s₁ =
      .ok (n, s')) : Laid s s' [n] := by
  obtain ⟨rfl, hb⟩ := spanFrom_pure_eq hc.tokens h
  obtain rfl := hb (Nat.lt_of_lt_of_le (Nat.succ_pos _) hc.le)
  exact hc.enclose_next ho hs₁

/-- A leaf spanning the current token, read by moving past it. -/
theorem leaf_laid (ho : Ordered s.tokens) (hs : Sound s)
    (hk : (tokenAt s.tokens s.pos).kind ≠ .eof) {f : Form} {ty : Option Ty} {n : Node}
    (hf : (Node.mk f (tokenAt s.tokens s.pos).span ty).children = [])
    (h : (advance >>= fun _ => pure (Node.mk f (tokenAt s.tokens s.pos).span ty)).run s =
      .ok (n, s')) : Laid s s' [n] := by
  obtain ⟨_, s₁, h₁, h⟩ := run_bind_eq_ok h
  obtain ⟨-, rfl, hs₁⟩ := advance_moves hs hk h₁
  obtain ⟨rfl, rfl⟩ := run_pure_eq_ok h
  exact Laid.token ho hs₁ hf

end Steps

/-- A pattern spans its constructor's name and what it binds. -/
theorem pattern_lays (fuel : Nat) : Lays ([·]) (pattern fuel) := by
  intro s hs ho n s' h
  unfold pattern at h
  rw [run_bind_ok (run_current s)] at h
  dsimp only at h
  split at h
  · cases h
  rename_i hcap
  have hk : (tokenAt s.tokens s.pos).kind = .identifier := by
    simp only [Token.isCapitalised, Bool.not_eq_true', Bool.not_eq_false, Bool.and_eq_true,
      beq_iff_eq] at hcap
    exact hcap.1
  obtain ⟨_, s₁, h₁, h⟩ := run_bind_eq_ok h
  obtain ⟨-, rfl, hs₁⟩ := advance_moves hs (by rw [hk]; decide) h₁
  obtain ⟨b, s₂, h₂, h⟩ := run_bind_eq_ok h
  have hl₂ := Laid.of_steps (steps_eat _) hs₁ h₂
  -- the bindings, if any, are read with no node
  obtain ⟨bs, s₃, hl₃, h⟩ : ∃ bs s₃, Laid { s with pos := s.pos + 1 } s₃ [] ∧
      (spanFrom (tokenAt s.tokens s.pos).span.start >>= fun sp =>
        pure (Node.mk (.pattern (tokenAt s.tokens s.pos).value bs) sp none)).run s₃ =
        .ok (n, s') := by
    split at h
    · obtain ⟨bs, s₃, h₃, h⟩ := run_bind_eq_ok h
      exact ⟨bs, s₃, hl₂.skip ho (steps_delimited steps_binding (by decide) fuel []) h₃, h⟩
    · obtain ⟨bs, s₃, h₃, h⟩ := run_bind_eq_ok h
      exact ⟨bs, s₃, hl₂.skip ho Steps.pure h₃, h⟩
  exact spanFrom_encloses_next hl₃ ho hs₁ h

/-- The declarations without bodies return no node. -/
theorem externDecl_nil (fuel : Nat) : Yields (externDecl fuel) (· = []) := by
  unfold externDecl
  refine Yields.bind_any fun _ => Yields.bind_any fun _ => Yields.bind_any fun _ => ?_
  exact Yields.bind_any fun _ => Yields.bind_any fun _ => Yields.pure rfl

/-- An interface declaration returns no node. -/
theorem interfaceDecl_nil (fuel : Nat) : Yields (interfaceDecl fuel) (· = []) := by
  unfold interfaceDecl
  refine Yields.bind_any fun _ => Yields.bind_any fun _ => Yields.bind_any fun _ => ?_
  refine Yields.bind_any fun _ => Yields.bind_any fun _ => ?_
  dsimp only
  split
  · exact Yields.throw_bind
  refine Yields.bind_any fun _ => Yields.bind_any fun _ => Yields.bind_any fun _ => ?_
  exact Yields.bind_any fun _ => Yields.bind_any fun _ => Yields.pure rfl

/-- An enum declaration returns no node. -/
theorem enumDecl_nil (fuel : Nat) : Yields (enumDecl fuel) (· = []) := by
  unfold enumDecl
  refine Yields.bind_any fun _ => Yields.bind_any fun _ => Yields.bind_any fun _ => ?_
  refine Yields.bind_any fun _ => Yields.bind_any fun _ => Yields.bind_any fun _ => ?_
  refine Yields.bind_any fun _ => Yields.bind_any fun _ => Yields.bind_any fun _ => ?_
  exact Yields.pure rfl

mutual

/-- **Every expression read lies within the tokens read, with nested spans.** -/
theorem expr_lays : (fuel : Nat) → (bp : Power) → Lays ([·]) (expr fuel bp)
  | 0, _ => Lays.outOfFuel
  | fuel + 1, bp => by
    unfold expr
    exact Lays.bind (start_lays fuel) fun left => extend_lays fuel bp left

/-- Operators and calls read after a left operand lay out the node they build, in place of the
operand. -/
theorem extend_lays : (fuel : Nat) → (bp : Power) → (left : Node) →
    LaysAfter [left] ([·]) (extend fuel bp left)
  | 0, _, _ => LaysAfter.outOfFuel
  | fuel + 1, bp, left => by
    unfold extend
    refine LaysAfter.current_bind fun _ => ?_
    dsimp only
    split
    · exact LaysAfter.pure rfl
    split
    · exact LaysAfter.bind (callExpr_lays fuel left) fun n => extend_lays fuel bp n
    · exact LaysAfter.bind (binaryExpr_lays fuel left _) fun n => extend_lays fuel bp n

/-- The start of an expression lies within the tokens read, with nested spans. -/
theorem start_lays : (fuel : Nat) → Lays ([·]) (start fuel)
  | 0 => Lays.outOfFuel
  | fuel + 1 => by
    unfold start
    refine Lays.current_bind fun _ => ?_
    split
    · exact primary_lays fuel
    · exact primary_lays fuel
    · exact primary_lays fuel
    · exact prefixExpr_lays fuel
    · exact prefixExpr_lays fuel
    · exact grouping_lays fuel
    · exact listExpr_lays fuel
    · exact blockExpr_lays fuel
    · exact ifExpr_lays fuel
    · exact letExpr_lays fuel
    · exact matchExpr_lays fuel
    · exact Lays.unexpected

/-- A literal, a name or a constructor expression lies within the tokens read, with nested spans. -/
theorem primary_lays : (fuel : Nat) → Lays ([·]) (primary fuel)
  | 0 => Lays.outOfFuel
  | fuel + 1 => by
    intro s hs ho n s' h
    unfold primary at h
    rw [run_bind_ok (run_current s)] at h
    split at h
    · rename_i hk
      split at h
      · cases h
      · exact leaf_laid ho hs (by rw [hk]; decide) rfl h
    · rename_i hk
      split at h
      · exact constructorExpr_lays fuel s hs ho n s' h
      · exact leaf_laid ho hs (by rw [hk]; decide) rfl h
    · rename_i hk
      exact leaf_laid ho hs (by rw [hk]; decide) rfl h
    · exact absurd h unexpected_ne_ok

/-- The arguments of a call lie one after another within the tokens read, with nested spans. -/
theorem arguments_lays : (fuel : Nat) → Lays id (arguments fuel)
  | 0 => Lays.outOfFuel
  | fuel + 1 => by
    unfold arguments
    exact Lays.skip (steps_expect (by decide)) fun _ =>
      Lays.of_after (LaysAfter.delimited (expr_lays fuel .default) (by decide) fuel [])

/-- A constructor expression lies within the tokens read and encloses its arguments. -/
theorem constructorExpr_lays : (fuel : Nat) → Lays ([·]) (constructorExpr fuel)
  | 0 => Lays.outOfFuel
  | fuel + 1 => by
    intro s hs ho n s' h
    unfold constructorExpr at h
    obtain ⟨t, s₁, h₁, h⟩ := run_bind_eq_ok h
    obtain ⟨-, rfl, rfl, hs₁⟩ := expect_moves hs (by decide) h₁
    rw [run_bind_ok (run_current _)] at h
    extract_lets jp at h
    -- the arguments, if any, follow the name
    obtain ⟨args, s₂, hl₂, h⟩ : ∃ args s₂, Laid { s with pos := s.pos + 1 } s₂ args ∧
        (jp args).run s₂ = .ok (n, s') := by
      split at h
      · obtain ⟨args, s₂, h₂, h⟩ := run_bind_eq_ok h
        exact ⟨args, s₂, arguments_lays fuel _ hs₁ ho _ _ h₂, h⟩
      · obtain ⟨args, s₂, h₂, h⟩ := run_bind_eq_ok h
        obtain ⟨rfl, rfl⟩ := run_pure_eq_ok h₂
        exact ⟨[], _, .nil hs₁ rfl (Nat.le_refl _), h⟩
    exact spanFrom_encloses_next hl₂ ho hs₁ h

/-- A binary operation spans from the start of its left operand to the end of its right one. -/
theorem binaryExpr_lays : (fuel : Nat) → (left : Node) → (bp : Power) →
    LaysAfter [left] ([·]) (binaryExpr fuel left bp)
  | 0, _, _ => LaysAfter.outOfFuel
  | fuel + 1, left, bp => by
    intro s₀ s hl ho n s' h
    unfold binaryExpr at h
    obtain ⟨_, s₁, h₁, h⟩ := run_bind_eq_ok h
    obtain ⟨right, s₂, h₂, h⟩ := run_bind_eq_ok h
    have hl₂ := (hl.skip ho steps_advance h₁).read ho (expr_lays fuel bp) h₂
    obtain ⟨rfl, rfl⟩ := run_pure_eq_ok h
    -- the operation spans from the start of its left operand to the end of its right one
    have hlr : left.span.start ≤ right.span.start := hl₂.head_le right (by simp)
    exact hl₂.wrap ho (hl₂.start_le (n := left) (by simp)) (hl₂.stop_le (n := right) (by simp))
      (hlr.trans (hl₂.start_le_stop (n := right) (by simp)))
      fun c hc => ⟨hl₂.head_le c hc, hl₂.le_last c hc⟩

/-- A prefix operation spans from its operator to the end of its operand. -/
theorem prefixExpr_lays : (fuel : Nat) → Lays ([·]) (prefixExpr fuel)
  | 0 => Lays.outOfFuel
  | fuel + 1 => by
    intro s hs ho n s' h
    unfold prefixExpr at h
    obtain ⟨op, s₁, h₁, h⟩ := run_bind_eq_ok h
    obtain ⟨rfl, hl₁⟩ := advance_laid hs h₁
    obtain ⟨operand, s₂, h₂, h⟩ := run_bind_eq_ok h
    have hl₂ := hl₁.read ho (expr_lays fuel .unary) h₂
    obtain ⟨rfl, rfl⟩ := run_pure_eq_ok h
    -- the operation spans from the operator to the end of its operand
    have hop : startAt s.tokens s.pos ≤ operand.span.start := hl₂.start_le (by simp)
    refine hl₂.wrap ho (Nat.le_refl _) (hl₂.stop_le (n := operand) (by simp))
      (hop.trans (hl₂.start_le_stop (n := operand) (by simp))) fun c hc => ?_
    rw [List.mem_singleton.1 hc]
    exact ⟨hop, Nat.le_refl _⟩

/-- An expression in parentheses is laid out as its inner expression. -/
theorem grouping_lays : (fuel : Nat) → Lays ([·]) (grouping fuel)
  | 0 => Lays.outOfFuel
  | fuel + 1 => by
    unfold grouping
    exact Lays.skip steps_advance fun _ => Lays.bind (expr_lays fuel .default) fun _ =>
      LaysAfter.skip (steps_expect (by decide)) fun _ => LaysAfter.pure rfl

/-- A call lies within the tokens read and encloses its callee and arguments. -/
theorem callExpr_lays : (fuel : Nat) → (callee : Node) →
    LaysAfter [callee] ([·]) (callExpr fuel callee)
  | 0, _ => LaysAfter.outOfFuel
  | fuel + 1, callee => by
    intro s₀ s hl ho n s' h
    unfold callExpr at h
    obtain ⟨args, s₁, h₁, h⟩ := run_bind_eq_ok h
    have hlt := (arguments_steps fuel s hl.sound _ _ h₁).2.1
    have hl₁ := hl.read ho (arguments_lays fuel) h₁
    obtain ⟨rfl, hb⟩ := spanFrom_pure_eq hl₁.tokens h
    obtain rfl := hb (by omega)
    -- the call spans from the start of its callee to the closing parenthesis
    have hc : callee.span.start ≤ callee.span.stop := hl₁.start_le_stop (by simp)
    exact hl₁.wrap ho (hl₁.start_le (n := callee) (by simp)) (Nat.le_refl _)
      (hc.trans (hl₁.stop_le (n := callee) (by simp))) fun c h => ⟨hl₁.head_le c h, hl₁.stop_le h⟩

/-- A list expression lies within the tokens read and encloses its elements. -/
theorem listExpr_lays : (fuel : Nat) → Lays ([·]) (listExpr fuel)
  | 0 => Lays.outOfFuel
  | fuel + 1 => by
    intro s hs ho n s' h
    have hlt := (listExpr_steps (fuel + 1) s hs n s' h).2.1
    unfold listExpr at h
    obtain ⟨t, s₁, h₁, h⟩ := run_bind_eq_ok h
    obtain ⟨rfl, hl₁⟩ := advance_laid hs h₁
    obtain ⟨items, s₂, h₂, h⟩ := run_bind_eq_ok h
    have hl₂ := hl₁.read ho
      (Lays.of_after (LaysAfter.delimited (expr_lays fuel .default) (by decide) fuel [])) h₂
    exact spanFrom_encloses hl₂ ho hlt h

/-- A block lies within the tokens read and encloses its items. -/
theorem blockExpr_lays : (fuel : Nat) → Lays ([·]) (blockExpr fuel)
  | 0 => Lays.outOfFuel
  | fuel + 1 => by
    intro s hs ho n s' h
    unfold blockExpr at h
    obtain ⟨t, s₁, h₁, h⟩ := run_bind_eq_ok h
    obtain ⟨-, rfl, rfl, hs₁⟩ := expect_moves hs (by decide) h₁
    obtain ⟨items, s₂, h₂, h⟩ := run_bind_eq_ok h
    have hl₂ := Lays.of_after (blockItems_lays fuel []) _ hs₁ ho _ _ h₂
    obtain ⟨_, s₃, h₃, h⟩ := run_bind_eq_ok h
    have hl₃ := hl₂.skip ho (steps_expect (by decide)) h₃
    exact spanFrom_encloses_next hl₃ ho hs₁ h

/-- The items of a block lie one after another after those read before them. -/
theorem blockItems_lays : (fuel : Nat) → (acc : List Node) →
    LaysAfter acc.reverse id (blockItems fuel acc)
  | 0, _ => LaysAfter.outOfFuel
  | fuel + 1, acc => by
    unfold blockItems
    refine LaysAfter.current_bind fun _ => ?_
    split
    · exact LaysAfter.pure rfl
    split
    · exact LaysAfter.unexpected
    refine LaysAfter.bind (item_lays fuel).after fun xs => ?_
    have := blockItems_lays fuel (xs.reverse ++ acc)
    rwa [List.reverse_append, List.reverse_reverse] at this

/-- An `if` lies within the tokens read and encloses its test and branches. -/
theorem ifExpr_lays : (fuel : Nat) → Lays ([·]) (ifExpr fuel)
  | 0 => Lays.outOfFuel
  | fuel + 1 => by
    intro s hs ho n s' h
    have hlt := (ifExpr_steps (fuel + 1) s hs n s' h).2.1
    unfold ifExpr at h
    obtain ⟨t, s₁, h₁, h⟩ := run_bind_eq_ok h
    obtain ⟨rfl, hl₁⟩ := advance_laid hs h₁
    obtain ⟨test, s₂, h₂, h⟩ := run_bind_eq_ok h
    have hl₂ := hl₁.read ho (expr_lays fuel .default) h₂
    obtain ⟨thenBody, s₃, h₃, h⟩ := run_bind_eq_ok h
    have hl₃ := hl₂.read ho (blockExpr_lays fuel) h₃
    obtain ⟨b, s₄, h₄, h⟩ := run_bind_eq_ok h
    have hl₄ := hl₃.skip ho (steps_eat _) h₄
    extract_lets jp at h
    -- the `else` branch, if any, is an `if` or a block, read after the `then` block
    obtain ⟨e, s₅, hl₅, h⟩ : ∃ e s₅, Laid s s₅ ([] ++ [test] ++ [thenBody] ++ e.toList) ∧
        (jp e).run s₅ = .ok (n, s') := by
      split at h
      · rw [run_bind_ok (run_current _)] at h
        split at h
        · obtain ⟨e, s₅, h₅, h⟩ := run_bind_eq_ok h
          exact ⟨e, s₅, hl₄.read ho (Lays.map_some (ifExpr_lays fuel)) h₅, h⟩
        · obtain ⟨e, s₅, h₅, h⟩ := run_bind_eq_ok h
          exact ⟨e, s₅, hl₄.read ho (Lays.map_some (blockExpr_lays fuel)) h₅, h⟩
      · obtain ⟨e, s₅, h₅, h⟩ := run_bind_eq_ok h
        obtain ⟨rfl, rfl⟩ := run_pure_eq_ok h₅
        exact ⟨none, s₄, by simpa using hl₄, h⟩
    exact spanFrom_encloses hl₅ ho hlt h

/-- An assignment lies within the tokens read and encloses its left side and value. -/
theorem assignment_lays : (fuel : Nat) → Lays ([·]) (assignment fuel)
  | 0 => Lays.outOfFuel
  | fuel + 1 => by
    intro s hs ho n s' h
    have hlt := (assignment_steps (fuel + 1) s hs n s' h).2.1
    unfold assignment at h
    rw [run_bind_ok (run_position s), run_bind_ok (run_current s)] at h
    extract_lets jp at h
    -- the left side is a pattern or a name
    obtain ⟨left, s₁, hl₁, h⟩ : ∃ left s₁, Laid s s₁ [left] ∧ (jp left).run s₁ = .ok (n, s') := by
      split at h
      · obtain ⟨left, s₁, h₁, h⟩ := run_bind_eq_ok h
        exact ⟨left, s₁, pattern_lays fuel s hs ho left s₁ h₁, h⟩
      · obtain ⟨b, s₁, h₁, h⟩ := run_bind_eq_ok h
        obtain ⟨left, s₂, h₂, h⟩ := run_bind_eq_ok h
        unfold binding at h₁
        obtain ⟨t, s₀, h₀, h₁⟩ := run_bind_eq_ok h₁
        obtain ⟨-, rfl, rfl, hs₀⟩ := expect_moves hs (by decide) h₀
        obtain ⟨rfl, rfl⟩ := run_pure_eq_ok h₁
        obtain ⟨rfl, rfl⟩ := run_pure_eq_ok h₂
        exact ⟨_, _, Laid.token ho hs₀ rfl, h⟩
    obtain ⟨_, s₂, h₂, h⟩ := run_bind_eq_ok h
    have hl₂ := hl₁.skip ho (steps_expect (by decide)) h₂
    obtain ⟨value, s₃, h₃, h⟩ := run_bind_eq_ok h
    have hl₃ := hl₂.read ho (expr_lays fuel .default) h₃
    exact spanFrom_encloses hl₃ ho hlt h

/-- The assignments after the first of a `let` lie one after another after those read before them.
-/
theorem moreAssignments_lays : (fuel : Nat) → (acc : List Node) →
    LaysAfter acc.reverse id (moreAssignments fuel acc)
  | 0, _ => LaysAfter.outOfFuel
  | fuel + 1, acc => by
    unfold moreAssignments
    refine LaysAfter.skip (steps_eat _) fun _ => ?_
    split
    · refine LaysAfter.bind (assignment_lays fuel).after fun a => ?_
      have := moreAssignments_lays fuel (a :: acc)
      rwa [List.reverse_cons] at this
    · exact LaysAfter.pure rfl

/-- A `let` lies within the tokens read and encloses its assignments and body. -/
theorem letExpr_lays : (fuel : Nat) → Lays ([·]) (letExpr fuel)
  | 0 => Lays.outOfFuel
  | fuel + 1 => by
    intro s hs ho n s' h
    have hlt := (letExpr_steps (fuel + 1) s hs n s' h).2.1
    unfold letExpr at h
    obtain ⟨t, s₁, h₁, h⟩ := run_bind_eq_ok h
    obtain ⟨rfl, hl₁⟩ := advance_laid hs h₁
    obtain ⟨a, s₂, h₂, h⟩ := run_bind_eq_ok h
    have hl₂ := hl₁.read ho (assignment_lays fuel) h₂
    obtain ⟨rest, s₃, h₃, h⟩ := run_bind_eq_ok h
    have hl₃ := hl₂.read ho (Lays.of_after (moreAssignments_lays fuel [])) h₃
    obtain ⟨body, s₄, h₄, h⟩ := run_bind_eq_ok h
    have hl₄ := hl₃.read ho (blockExpr_lays fuel) h₄
    exact spanFrom_encloses hl₄ ho hlt h

/-- A case of a `match` lies within the tokens read and encloses its pattern and body. -/
theorem caseExpr_lays : (fuel : Nat) → Lays ([·]) (caseExpr fuel)
  | 0 => Lays.outOfFuel
  | fuel + 1 => by
    intro s hs ho n s' h
    have hlt := (caseExpr_steps (fuel + 1) s hs n s' h).2.1
    unfold caseExpr at h
    rw [run_bind_ok (run_position s)] at h
    obtain ⟨pat, s₁, h₁, h⟩ := run_bind_eq_ok h
    have hl₁ := (Laid.nil hs rfl (Nat.le_refl _) : Laid s s []).read ho (pattern_lays fuel) h₁
    obtain ⟨_, s₂, h₂, h⟩ := run_bind_eq_ok h
    have hl₂ := hl₁.skip ho (steps_expect (by decide)) h₂
    obtain ⟨body, s₃, h₃, h⟩ := run_bind_eq_ok h
    have hl₃ := hl₂.read ho (expr_lays fuel .default) h₃
    exact spanFrom_encloses hl₃ ho hlt h

/-- The cases of a `match` lie one after another after those read before them. -/
theorem cases_lays : (fuel : Nat) → (acc : List Node) → LaysAfter acc.reverse id (cases fuel acc)
  | 0, _ => LaysAfter.outOfFuel
  | fuel + 1, acc => by
    unfold cases
    refine LaysAfter.current_bind fun _ => ?_
    split
    · exact LaysAfter.pure rfl
    refine LaysAfter.bind (caseExpr_lays fuel).after fun c => LaysAfter.skip (steps_eat _) fun _ => ?_
    have := cases_lays fuel (c :: acc)
    rwa [List.reverse_cons] at this

/-- A `match` lies within the tokens read and encloses its subject and cases. -/
theorem matchExpr_lays : (fuel : Nat) → Lays ([·]) (matchExpr fuel)
  | 0 => Lays.outOfFuel
  | fuel + 1 => by
    intro s hs ho n s' h
    have hlt := (matchExpr_steps (fuel + 1) s hs n s' h).2.1
    unfold matchExpr at h
    obtain ⟨t, s₁, h₁, h⟩ := run_bind_eq_ok h
    obtain ⟨rfl, hl₁⟩ := advance_laid hs h₁
    obtain ⟨value, s₂, h₂, h⟩ := run_bind_eq_ok h
    have hl₂ := hl₁.read ho (expr_lays fuel .default) h₂
    obtain ⟨_, s₃, h₃, h⟩ := run_bind_eq_ok h
    have hl₃ := hl₂.skip ho (steps_expect (by decide)) h₃
    obtain ⟨cs, s₄, h₄, h⟩ := run_bind_eq_ok h
    have hl₄ := hl₃.read ho (Lays.of_after (cases_lays fuel [])) h₄
    obtain ⟨_, s₅, h₅, h⟩ := run_bind_eq_ok h
    have hl₅ := hl₄.skip ho (steps_expect (by decide)) h₅
    exact spanFrom_encloses hl₅ ho hlt h

/-- The nodes an item of a program returns lie within the tokens read, with nested spans. -/
theorem item_lays : (fuel : Nat) → Lays id (item fuel)
  | 0 => Lays.outOfFuel
  | fuel + 1 => by
    unfold item
    refine Lays.current_bind fun _ => ?_
    split
    · exact fnDecl_lays fuel
    · exact Lays.of_nil (externDecl_steps fuel) (externDecl_nil fuel)
    · exact Lays.of_nil (interfaceDecl_steps fuel) (interfaceDecl_nil fuel)
    · exact implDecl_lays fuel
    · exact Lays.of_nil (enumDecl_steps fuel) (enumDecl_nil fuel)
    · exact Lays.bind (expr_lays fuel .default) fun _ =>
        LaysAfter.skip (steps_eat _) fun _ => LaysAfter.pure rfl

/-- A function declaration lies within the tokens read and encloses its body. -/
theorem fnDecl_lays : (fuel : Nat) → Lays id (fnDecl fuel)
  | 0 => Lays.outOfFuel
  | fuel + 1 => by
    intro s hs ho ns s' h
    have hlt := (fnDecl_steps (fuel + 1) s hs ns s' h).2.1
    unfold fnDecl at h
    obtain ⟨t, s₁, h₁, h⟩ := run_bind_eq_ok h
    obtain ⟨rfl, hl₁⟩ := advance_laid hs h₁
    obtain ⟨⟨params, sig⟩, s₂, h₂, h⟩ := run_bind_eq_ok h
    have hl₂ := hl₁.skip ho (signature_steps fuel) h₂
    obtain ⟨body, s₃, h₃, h⟩ := run_bind_eq_ok h
    have hl₃ := hl₂.read ho (blockExpr_lays fuel) h₃
    obtain ⟨_, s₄, h₄, h⟩ := run_bind_eq_ok h
    have hl₄ := hl₃.skip ho (steps_declare _) h₄
    obtain ⟨rfl, hb⟩ := spanFrom_pure_eq hl₄.tokens h
    obtain rfl := hb (by omega)
    exact hl₄.enclose ho hlt

/-- An implementation block lays out its methods one after another within the tokens read. -/
theorem implDecl_lays : (fuel : Nat) → Lays id (implDecl fuel)
  | 0 => Lays.outOfFuel
  | fuel + 1 => by
    unfold implDecl
    refine Lays.skip steps_advance fun _ => Lays.skip (steps_expect (by decide)) fun _ => ?_
    refine Lays.skip Steps.get fun _ => ?_
    extract_lets jp
    -- what follows the interface reads no node before the methods
    have hk : ∀ iface, Lays id (jp iface) := fun iface => by
      refine Lays.skip (steps_expect (by decide)) fun _ => Lays.skip steps_position fun _ => ?_
      refine Lays.skip (typeExpr_steps fuel) fun _ => Lays.skip (steps_expect (by decide)) fun _ => ?_
      extract_lets jp'
      have hk' : ∀ key, Lays id (jp' key) := fun key => by
        refine Lays.skip Steps.get fun _ => ?_
        dsimp only
        split
        · exact Lays.throw_bind
        refine Lays.skip (steps_declare _) fun _ => Lays.skip (steps_expect (by decide)) fun _ => ?_
        exact Lays.bind (Lays.of_after (implMethods_lays fuel iface _ key [])) fun _ =>
          LaysAfter.skip (steps_expect (by decide)) fun _ => LaysAfter.pure rfl
      split
      · exact Lays.skip Steps.pure hk'
      · exact Lays.throw_bind
    split
    · refine Lays.skip Steps.get fun _ => ?_
      split
      · exact Lays.skip Steps.pure hk
      · exact Lays.throw_bind
    · exact Lays.throw_bind

/-- The methods of an implementation block lie one after another after those read before them. -/
theorem implMethods_lays : (fuel : Nat) → (iface : Iface) → (ty : Ty) → (key : String) →
    (acc : List Node) → LaysAfter acc.reverse id (implMethods fuel iface ty key acc)
  | 0, _, _, _, _ => LaysAfter.outOfFuel
  | fuel + 1, iface, ty, key, acc => by
    intro s₀ s hl ho ns s' h
    unfold implMethods at h
    rw [run_bind_ok (run_current s)] at h
    split at h
    · obtain ⟨rfl, rfl⟩ := run_pure_eq_ok h
      exact hl
    obtain ⟨t, s₁, h₁, h⟩ := run_bind_eq_ok h
    obtain ⟨-, rfl, rfl, hs₁⟩ := expect_moves hl.sound (by decide) h₁
    obtain ⟨m, s₂, h₂, h⟩ := run_bind_eq_ok h
    have hl₂ := Laid.of_steps (steps_expect (by decide)) hs₁ h₂
    extract_lets _ jp at h
    -- the method's signature comes from the interface, or the reading fails
    obtain ⟨method, h⟩ : ∃ method, (jp method).run s₂ = .ok (ns, s') := by
      split at h
      · obtain ⟨method, s₃, h₃, h⟩ := run_bind_eq_ok h
        obtain ⟨rfl, rfl⟩ := run_pure_eq_ok h₃
        exact ⟨_, h⟩
      · cases h
    have ho₁ : Ordered { s with pos := s.pos + 1 }.tokens := hl.tokens ▸ ho
    obtain ⟨_, s₃, h₃, h⟩ := run_bind_eq_ok h
    have hl₃ := hl₂.skip ho₁ (steps_expect (by decide)) h₃
    obtain ⟨params, s₄, h₄, h⟩ := run_bind_eq_ok h
    have hl₄ := hl₃.skip ho₁ (steps_delimited steps_binding (by decide) fuel []) h₄
    obtain ⟨body, s₅, h₅, h⟩ := run_bind_eq_ok h
    have hl₅ := hl₄.read ho₁ (blockExpr_lays fuel) h₅
    obtain ⟨_, s₆, h₆, h⟩ := run_bind_eq_ok h
    have hl₆ := hl₅.skip ho₁ (steps_declare _) h₆
    have hp : 0 < s₆.pos := by have := hl₆.le; simp at this; omega
    rw [run_bind_ok (run_spanFrom_of_pos _ hl₆.tokens hp)] at h
    -- the method's function lies after the methods read before it
    exact implMethods_lays fuel iface ty key _ s₀ _
      (by rw [List.reverse_cons]; exact hl.append ho (hl₆.enclose_next ho₁ hs₁)) ho ns s' h

end

/-- The item loop lays out the items it reads after those read before. -/
theorem programItems_lays : (fuel : Nat) → (acc : List Node) →
    LaysAfter acc.reverse id (programItems fuel acc)
  | 0, _ => LaysAfter.outOfFuel
  | fuel + 1, acc => by
    unfold programItems
    refine LaysAfter.current_bind fun _ => ?_
    split
    · exact LaysAfter.pure rfl
    refine LaysAfter.bind (item_lays fuel).after fun xs => ?_
    have := programItems_lays fuel (xs.reverse ++ acc)
    rwa [List.reverse_append, List.reverse_reverse] at this

/-- The item loop stops only at the end mark. -/
theorem programItems_at_end {s s' : State} {items : List Node} :
    (fuel : Nat) → (acc : List Node) → (programItems fuel acc).run s = .ok (items, s') →
      (tokenAt s'.tokens s'.pos).kind = .eof
  | 0, _, h => absurd h outOfFuel_ne_ok
  | fuel + 1, acc, h => by
    unfold programItems at h
    rw [run_bind_ok (run_current s)] at h
    split at h
    · obtain ⟨rfl, rfl⟩ := run_pure_eq_ok h
      assumption
    · obtain ⟨xs, s₁, -, h⟩ := run_bind_eq_ok h
      exact programItems_at_end fuel _ h

/-! ## Programs read from a source -/

/-- The token at an index below the size is the one the array holds there. -/
theorem tokenAt_eq_getElem {toks : Array Token} {i : Nat} (h : i < toks.size) :
    tokenAt toks i = toks[i] := by
  simp [tokenAt, Nat.min_eq_left (Nat.le_sub_one_of_lt h), Array.getElem?_eq_getElem h]

/-- On tokens listed as `l`, the token at an index of `l` is the one `l` lists there. -/
theorem tokenAt_of_toList {toks : Array Token} {l : List Token} (h : toks.toList = l) {i : Nat}
    (hi : i < l.length) : tokenAt toks i = l[i] := by
  subst h
  rw [tokenAt_eq_getElem (by simpa using hi), Array.getElem_toList]

/-- On tokens that are not empty, the token at any index is one of them. -/
theorem tokenAt_mem_of_pos {toks : Array Token} (h : 0 < toks.size) (i : Nat) :
    tokenAt toks i ∈ toks.toList := by
  have hlt : min i (toks.size - 1) < toks.size := by omega
  have ht : tokenAt toks i = toks[min i (toks.size - 1)] := by
    simp [tokenAt, Array.getElem?_eq_getElem hlt]
  rw [ht]
  exact Array.mem_toList_iff.2 (Array.getElem_mem hlt)

/-- The scanner's tokens from a source of fewer than `2^32` bytes are in order, and end with the
end mark at the end of the source, the only one. -/
theorem scan_ordered {src : String} {toks : Array Token} (hsize : src.utf8ByteSize < 4294967296)
    (h : Token.scan src = .ok toks) :
    Ordered toks ∧ ∃ front : List Token, toks.toList =
      front ++ [⟨.eof, "EOF", ⟨src.utf8ByteSize, src.utf8ByteSize⟩⟩] ∧ ∀ t ∈ front, t.kind ≠ .eof := by
  rcases Token.scan_munch src with ⟨p, c, herr, -⟩ | ⟨ts, hok, hm⟩
  · rw [herr] at h
    cases h
  -- below `2^32` bytes the positions are the offsets of maximal munch
  have hb : 0 + Text.byteLength src.toList < 4294967296 := by
    rwa [Token.byteLength_toList, Nat.zero_add]
  rw [hm.map_atPositions hb, h] at hok
  cases hok
  obtain ⟨front, hfront, hne⟩ := hm.eof_last
  rw [Nat.zero_add, Token.byteLength_toList] at hfront
  have hfront' : ts.toArray.toList = front ++ [⟨.eof, "EOF", ⟨src.utf8ByteSize, src.utf8ByteSize⟩⟩] := by
    rw [List.toList_toArray, hfront]
  have hpos : 0 < ts.toArray.size := by
    have := congrArg List.length hfront
    simp at this
    simp
    omega
  refine ⟨⟨fun i => ?_, fun i j hij hj => ?_⟩, front, hfront', hne⟩
  · -- the end mark is empty, every other token spans the text it is read from
    have hmem := tokenAt_mem_of_pos hpos i
    by_cases hk : (tokenAt ts.toArray i).kind = .eof
    · rw [hfront'] at hmem
      rcases List.mem_append.1 hmem with hf | he
      · exact absurd hk (hne _ hf)
      · rw [List.mem_singleton.1 he]
    · rw [List.toList_toArray] at hmem
      obtain ⟨pre, w, post, -, hst, hstop, -⟩ := hm.token_text _ hmem hk
      omega
  · rw [tokenAt_eq_getElem (by omega), tokenAt_eq_getElem hj, ← Array.getElem_toList,
      ← Array.getElem_toList]
    exact List.pairwise_iff_getElem.1 (by simpa using hm.spans_ordered) i j
      (by simpa using (by omega : i < ts.toArray.size)) (by simpa using hj) hij

/-- The span of the whole text read so far starts at 0 and ends at the end of the last token
read. -/
theorem run_spanFrom_zero (s : State) :
    (spanFrom 0).run s = .ok (⟨0, endBefore s.tokens s.pos⟩, s) := by
  by_cases hp : s.pos = 0
  · simp [spanFrom, endBefore, hp]
    rfl
  · exact run_spanFrom_of_pos 0 rfl (Nat.pos_of_ne_zero hp)

/-- **Spans nest in source order.** For every source of fewer than `2^32` bytes that scans and
every program read from its tokens, from any declarations: each node starts no later than its first child, each child
ends no later than the next one starts, and the last ends no later than the node; every span
starts no later than it ends, and ends within the source. The tokens are those before the end
mark and then the end mark, and the root block spans from 0 to the end of the last token
before the end mark, or is empty at 0 when there is none. -/
theorem program_spans_nest {src : String} {toks : Array Token} {d : Decls} {prog : Program}
    (hsize : src.utf8ByteSize < 4294967296) (hscan : Token.scan src = .ok toks)
    (hread : program toks d = .ok prog) :
    (∀ n ∈ prog.body.preorder,
      n.Nests ∧ n.span.start ≤ n.span.stop ∧ n.span.stop ≤ src.utf8ByteSize) ∧
    ∃ front, toks.toList = front ++ [⟨.eof, "EOF", ⟨src.utf8ByteSize, src.utf8ByteSize⟩⟩] ∧
      prog.body.span = ⟨0, (front.getLast?.map (·.span.stop)).getD 0⟩ := by
  obtain ⟨ho, front, hfront, hne⟩ := scan_ordered hsize hscan
  have hend : withEnd toks = toks :=
    withEnd_of_map (l := front.map fun t => (t.kind, t.value)) (by rw [hfront]; simp)
  have hsize : toks.size = front.length + 1 := by simpa using congrArg List.length hfront
  have hs₀ : Sound ⟨toks, 0, d, []⟩ := hend ▸ sound_start toks d
  unfold program at hread
  rw [hend] at hread
  dsimp only at hread
  generalize hr : StateT.run _ _ = r at hread
  rcases r with e | ⟨p, sEnd⟩
  · cases hread
  cases hread
  -- the items are read up to the end mark, and the root spans what they were read from
  obtain ⟨items, s₁, h₁, h⟩ := run_bind_eq_ok hr
  have hl₁ := Lays.of_after (programItems_lays _ []) _ hs₀ ho _ _ h₁
  have heof := programItems_at_end _ [] h₁
  rw [run_bind_ok (run_spanFrom_zero s₁)] at h
  obtain ⟨_, s₂, h₂, h⟩ := run_bind_eq_ok h
  obtain ⟨rfl, rfl⟩ := run_get_eq_ok h₂
  obtain ⟨rfl, rfl⟩ := run_pure_eq_ok h
  rw [hl₁.tokens] at heof ⊢
  have hroot : Nested toks (.mk (.block items) ⟨0, endBefore toks s₁.pos⟩ none) :=
    Laid.nested_of_children (n := .mk (.block items) ⟨0, endBefore toks s₁.pos⟩ none) hl₁ ho
      (Nat.le_refl _) (Nat.zero_le _)
      fun c hc => ⟨Nat.zero_le _, hl₁.stop_le hc⟩
  -- the end of the tokens is the end of the end mark, the end of the source
  have hlen : endBefore toks toks.size = src.utf8ByteSize := by
    rw [hsize, endBefore_succ, tokenAt_of_toList hfront (by simp)]
    simp
  -- the items stop at the end mark, the last token
  have hpos : s₁.pos = front.length := by
    have hlt := hl₁.lt_size
    by_contra hne'
    have hi : s₁.pos < front.length := by simp at hlt; omega
    rw [tokenAt_of_toList hfront (by simp; omega), List.getElem_append_left hi] at heof
    exact hne _ (List.getElem_mem hi) heof
  refine ⟨fun n hn => ?_, front, hfront, ?_⟩
  · obtain ⟨hnest, hstop⟩ := Node.all_of_mem_preorder hroot hn
    exact ⟨hnest, hnest.start_le_stop, hlen ▸ hstop⟩
  · dsimp only
    rw [hpos]
    rcases List.eq_nil_or_concat front with rfl | ⟨init, z, rfl⟩
    · rfl
    · rw [List.concat_eq_append] at hfront ⊢
      rw [List.length_append, List.length_singleton, endBefore_succ,
        tokenAt_of_toList hfront (by simp)]
      simp [Node.span]

/-- The tokens of `let x = (1 + 2) * 3 { f(-x, [x]) }`: an operation whose left operand is in
parentheses, a prefix operation inside a call, and a list. -/
def groupedLetTokens : Array Token :=
  match Token.scan "let x = (1 + 2) * 3 \x7b f(-x, [x]) \x7d" with
  | .ok ts => ts
  | .error _ => #[]

/-- The spans of a `let` whose value has an operand in parentheses, and whose body calls `f` with a
prefix operation and a list, nest within the source; its root block spans from 0 to the end of the
last token. -/
theorem program_spans_nest_let :
    "let x = (1 + 2) * 3 \x7b f(-x, [x]) \x7d".utf8ByteSize < 4294967296 ∧
    Token.scan "let x = (1 + 2) * 3 \x7b f(-x, [x]) \x7d" = .ok groupedLetTokens ∧
    ∃ prog, program groupedLetTokens = .ok prog ∧
      (∀ n ∈ prog.body.preorder, n.Nests ∧ n.span.start ≤ n.span.stop ∧
        n.span.stop ≤ "let x = (1 + 2) * 3 \x7b f(-x, [x]) \x7d".utf8ByteSize) ∧
      ∃ front, groupedLetTokens.toList = front ++ [⟨.eof, "EOF", ⟨"let x = (1 + 2) * 3 \x7b f(-x, [x]) \x7d".utf8ByteSize,
        "let x = (1 + 2) * 3 \x7b f(-x, [x]) \x7d".utf8ByteSize⟩⟩] ∧
        prog.body.span = ⟨0, (front.getLast?.map (·.span.stop)).getD 0⟩ := by
  have hsize : "let x = (1 + 2) * 3 \x7b f(-x, [x]) \x7d".utf8ByteSize < 4294967296 := by decide
  have hscan : Token.scan "let x = (1 + 2) * 3 \x7b f(-x, [x]) \x7d" = .ok groupedLetTokens := by
    have hok : (Token.scan "let x = (1 + 2) * 3 \x7b f(-x, [x]) \x7d").isOk = true := by
      decide +kernel
    unfold groupedLetTokens
    split
    · rename_i ts h
      exact h
    · rename_i e h
      rw [h] at hok
      cases hok
  have hok : (program groupedLetTokens).isOk = true := by decide +kernel
  refine ⟨hsize, hscan, ?_⟩
  match h : program groupedLetTokens, hok with
  | .ok prog, _ => exact ⟨prog, rfl, program_spans_nest hsize hscan h⟩

/-- The root block ends at the end of the last token, before the blanks that follow it. -/
example : ((Token.scan "1 + 2  ").toOption.bind fun toks => (program toks).toOption).map
    (·.body.span.stop) = some 5 := by decide +kernel

/-- **Past `2^32 - 1` bytes a span can end before it starts.** After `2^32 - 1` blanks the
number `1` takes the last byte below `2^32`, and its end wraps round to position 0: the node
read from it ends before it starts. -/
theorem program_span_wraps :
    Token.scan (String.ofList (List.replicate 4294967295 ' ' ++ ['1'])) =
      .ok #[⟨.number, "1", ⟨4294967295, 0⟩⟩, ⟨.eof, "EOF", ⟨0, 0⟩⟩] ∧
    ∃ prog, program #[⟨.number, "1", ⟨4294967295, 0⟩⟩, ⟨.eof, "EOF", ⟨0, 0⟩⟩] = .ok prog ∧
      ∃ n ∈ prog.body.preorder, n.span.stop < n.span.start := by
  have hrep : List.replicate 4294967295 ' ' = ' ' :: List.replicate 4294967294 ' ' :=
    List.replicate_succ (a := ' ') (n := 4294967294)
  have hlen : Text.byteLength (List.replicate 4294967295 ' ') = 4294967295 := by
    rw [Token.byteLength_replicate]
    rfl
  -- the blanks are one run, then the number is read at byte `2^32 - 1`
  have hrun := @Token.scanFrom_blanks 0 #[] ' ' (List.replicate 4294967294 ' ') ['1'] rfl
    (fun d hd => by rw [List.eq_of_mem_replicate hd]; rfl)
    (fun d hd => by obtain rfl := Option.mem_some_iff.1 hd; rfl)
  rw [← hrep, Nat.zero_add, hlen] at hrun
  refine ⟨?_, ?_⟩
  · rw [Token.scan, String.toList_ofList, hrun, Token.scanFrom]
    simp only [show Token.read '1' [] = some (Token.number '1' []) from rfl]
    rw [show (Token.number '1' []).after = [] from rfl, Token.scanFrom]
    rfl
  · -- the reader is run on the two tokens
    have h : ((program #[⟨.number, "1", ⟨4294967295, 0⟩⟩, ⟨.eof, "EOF", ⟨0, 0⟩⟩]).toOption.map
        fun prog => prog.body.preorder.any fun n => n.span.stop < n.span.start) = some true := by
      decide +kernel
    cases hp : program #[⟨.number, "1", ⟨4294967295, 0⟩⟩, ⟨.eof, "EOF", ⟨0, 0⟩⟩] with
    | error e =>
      rw [hp] at h
      cases h
    | ok prog =>
      rw [hp] at h
      simp only [Except.toOption, Option.map_some, Option.some.injEq, List.any_eq_true,
        decide_eq_true_eq] at h
      exact ⟨prog, rfl, h⟩

end Parse

end Verve
