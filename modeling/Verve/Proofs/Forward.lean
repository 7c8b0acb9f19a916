import Verve.Proofs.Dispatch
import Verve.Proofs.Fuel

/-!
# Reading forward

What the readers of the expression grammar do on the tokens they find: for each branch that
a reading of well-formed input takes, the result and the position after it, or the reader
the branch hands over to. Proofs about a whole reading cite these lemmas and leave the
readers folded: `start` by the kind of the first token (`run_start_primary`,
`run_start_unary`, `run_start_grouping`, `run_start_list`), `primary` by the literal or name
it meets, and the extension loop by its three ways on (`extend_stop`, `run_extend_call`,
`run_extend_binary`).
-/

namespace Verve

namespace Parse

section Forward

variable {s : State} {n : Nat}

/-- A read followed by another, when the first returns. -/
theorem run_bind_ok {α β : Type} {m : Reader α} {f : α → Reader β} {s' : State} {a : α}
    (h : m.run s = .ok (a, s')) : (m >>= f).run s = (f a).run s' := by
  rw [StateT.run_bind, h]
  rfl

theorem run_pure {α : Type} (a : α) (s : State) : (pure a : Reader α).run s = .ok (a, s) := rfl

/-- What more fuel a reading needs than it has tokens to read. -/
theorem weight_at (s : State) (j : Nat) :
    weight { s with pos := j } = 8 * (s.tokens.size - j) := rfl

theorem run_advance_of_lt (h : s.pos + 1 < s.tokens.size) :
    advance.run s = .ok (tokenAt s.tokens s.pos, { s with pos := s.pos + 1 }) := by
  rw [run_advance, if_pos h]

theorem run_expect_of_kind {k : TokenKind} (hk : (tokenAt s.tokens s.pos).kind = k)
    (h : s.pos + 1 < s.tokens.size) :
    (expect k).run s = .ok (tokenAt s.tokens s.pos, { s with pos := s.pos + 1 }) := by
  unfold expect
  rw [run_bind_ok (run_current s), if_pos hk, run_advance_of_lt h]

theorem run_eat_of_ne {k : TokenKind} (hk : (tokenAt s.tokens s.pos).kind ≠ k) :
    (eat k).run s = .ok (false, s) := by
  unfold eat
  rw [run_bind_ok (run_current s), if_neg hk]
  rfl

theorem run_eat_of_kind {k : TokenKind} (hk : (tokenAt s.tokens s.pos).kind = k)
    (h : s.pos + 1 < s.tokens.size) : (eat k).run s = .ok (true, { s with pos := s.pos + 1 }) := by
  unfold eat
  rw [run_bind_ok (run_current s), if_pos hk, run_bind_ok (run_advance_of_lt h)]
  rfl

/-! ## The start of an expression -/

theorem run_start_primary {k : TokenKind} (hk : (tokenAt s.tokens s.pos).kind = k)
    (hkind : k = .number ∨ k = .identifier ∨ k = .string) :
    (start (n + 1)).run s = (primary n).run s := by
  unfold start
  rw [run_bind_ok (run_current s), hk]
  rcases hkind with rfl | rfl | rfl <;> rfl

theorem run_start_unary {k : TokenKind} (hk : (tokenAt s.tokens s.pos).kind = k)
    (hkind : k = .dash ∨ k = .not) : (start (n + 1)).run s = (prefixExpr n).run s := by
  unfold start
  rw [run_bind_ok (run_current s), hk]
  rcases hkind with rfl | rfl <;> rfl

theorem run_start_grouping (hk : (tokenAt s.tokens s.pos).kind = .openParen) :
    (start (n + 1)).run s = (grouping n).run s := by
  unfold start
  rw [run_bind_ok (run_current s), hk]

theorem run_start_list (hk : (tokenAt s.tokens s.pos).kind = .openBracket) :
    (start (n + 1)).run s = (listExpr n).run s := by
  unfold start
  rw [run_bind_ok (run_current s), hk]

/-! ## Literals and names -/

theorem run_primary_number {lit : Literal} (hk : (tokenAt s.tokens s.pos).kind = .number)
    (hv : Literal.ofText? (tokenAt s.tokens s.pos).value = some lit)
    (hlt : s.pos + 1 < s.tokens.size) :
    (primary (n + 1)).run s =
      .ok (.mk (.num lit) (tokenAt s.tokens s.pos).span none, { s with pos := s.pos + 1 }) := by
  unfold primary
  rw [run_bind_ok (run_current s), hk]
  dsimp only
  rw [hv]
  dsimp only
  rw [run_bind_ok (run_advance_of_lt hlt), run_pure]

theorem run_primary_name (hk : (tokenAt s.tokens s.pos).kind = .identifier)
    (hcap : (tokenAt s.tokens s.pos).isCapitalised = false) (hlt : s.pos + 1 < s.tokens.size) :
    (primary (n + 1)).run s = .ok (.mk (.ident (tokenAt s.tokens s.pos).value)
      (tokenAt s.tokens s.pos).span none, { s with pos := s.pos + 1 }) := by
  unfold primary
  rw [run_bind_ok (run_current s), hk]
  dsimp only
  rw [if_neg (by rw [hcap]; exact Bool.false_ne_true), run_bind_ok (run_advance_of_lt hlt),
    run_pure]

theorem run_primary_string (hk : (tokenAt s.tokens s.pos).kind = .string)
    (hlt : s.pos + 1 < s.tokens.size) :
    (primary (n + 1)).run s = .ok (.mk (.str (tokenAt s.tokens s.pos).value)
      (tokenAt s.tokens s.pos).span none, { s with pos := s.pos + 1 }) := by
  unfold primary
  rw [run_bind_ok (run_current s), hk]
  dsimp only
  rw [run_bind_ok (run_advance_of_lt hlt), run_pure]

theorem run_primary_constructor (hk : (tokenAt s.tokens s.pos).kind = .identifier)
    (hcap : (tokenAt s.tokens s.pos).isCapitalised = true) :
    (primary (n + 1)).run s = (constructorExpr n).run s := by
  unfold primary
  rw [run_bind_ok (run_current s), hk]
  dsimp only
  rw [if_pos hcap]

/-! ## The extension loop -/

variable {bp : Power} {x : Node}

/-- The loop stops at a token that binds no more strongly than the power being read. -/
theorem extend_stop (h : (Power.ofKind (tokenAt s.tokens s.pos).kind).rank ≤ bp.rank) :
    (extend (n + 1) bp x).run s = .ok (x, s) := by
  unfold extend
  rw [run_bind_ok (run_current s)]
  dsimp only
  rw [if_pos h]
  rfl

/-- At an opening parenthesis the loop reads a call, unless it reads at the power of calls. -/
theorem run_extend_call (hk : (tokenAt s.tokens s.pos).kind = .openParen)
    (hbp : bp.rank < Power.call.rank) :
    (extend (n + 1) bp x).run s = (callExpr n x >>= extend n bp).run s := by
  conv => lhs; unfold extend
  rw [run_bind_ok (run_current s)]
  dsimp only
  rw [if_neg (by rw [hk]; exact Nat.not_le.2 hbp), if_pos hk]

/-- At an operator that binds more strongly than the power being read, the loop reads a
binary operation. -/
theorem run_extend_binary {op : TokenKind} (hk : (tokenAt s.tokens s.pos).kind = op)
    (hop : op ≠ .openParen) (hbp : bp.rank < (Power.ofKind op).rank) :
    (extend (n + 1) bp x).run s = (binaryExpr n x (Power.ofKind op) >>= extend n bp).run s := by
  conv => lhs; unfold extend
  rw [run_bind_ok (run_current s)]
  dsimp only
  rw [if_neg (by rw [hk]; exact Nat.not_le.2 hbp), if_neg (by rw [hk]; exact hop), hk]

end Forward

end Parse

end Verve
