import Mathlib.Data.List.Nodup
import Verve.Proofs.Munch
import Verve.Parse.Print

/-!
# The scan of a printed expression

Maximal munch reads a text in one way only (`Token.Munch.unique`), and a text it reads is not
one on which it gets stuck (`Token.Munch.not_stuck`): at each place the longest text that a
pattern matches is one text, and that text makes one token (`Token.Lexeme.unique`). So the
scan of a text is known as soon as one reading of it by maximal munch is.

The source text of a token ends where a blank follows it (`Token.Lexeme.maximal_before_blank`):
a name, a number or a mark holds no blank, and a string literal ends at its closing quote.
Tokens whose source texts make them, written with a blank between two, are what the scan
reads back (`Token.scan_spaced`); the tokens of a printable tree are such tokens
(`Node.Printable.scan_print`).
-/

namespace Verve
namespace Token

/-! ## The token a text makes -/

section Classes

variable {c : Char} {t : List Char} {o : Option (TokenKind × String)}

theorem Lexeme.token_of_nameStart (hc : isNameStart c = true) (h : Lexeme (c :: t) o) :
    o = some (wordKind (String.ofList (c :: t)), String.ofList (c :: t)) := by
  obtain ⟨c', t', he, hcase⟩ := h.head
  obtain ⟨rfl, rfl⟩ := List.cons.inj he
  have ⟨hd, hb, hq, hs⟩ := nameStart_apart hc
  rcases hcase with ⟨-, -, ho⟩ | ⟨hd', -⟩ | ⟨hb', -⟩ | ⟨rfl, -⟩ | ⟨rfl, -⟩ | ⟨k, m, hm, hmc, -⟩
  · exact ho
  · simp [hd] at hd'
  · simp [hb] at hb'
  · exact absurd rfl hq
  · exact absurd rfl hs
  · simp [(mark_apart hm hmc).1] at hc

theorem Lexeme.token_of_digit (hc : c.isDigit = true) (h : Lexeme (c :: t) o) :
    o = some (.number, String.ofList (c :: t)) := by
  obtain ⟨c', t', he, hcase⟩ := h.head
  obtain ⟨rfl, rfl⟩ := List.cons.inj he
  have ⟨hb, hq, hs⟩ := digit_apart hc
  rcases hcase with ⟨hn, -⟩ | ⟨-, ho, -⟩ | ⟨hb', -⟩ | ⟨rfl, -⟩ | ⟨rfl, -⟩ | ⟨k, m, hm, hmc, -⟩
  · simp [nameStart_apart_of_digit hc] at hn
  · exact ho
  · simp [hb] at hb'
  · exact absurd rfl hq
  · exact absurd rfl hs
  · simp [(mark_apart hm hmc).2.1] at hc

theorem Lexeme.token_of_blank (hc : Text.isBlank c = true) (h : Lexeme (c :: t) o) : o = none := by
  obtain ⟨c', t', he, hcase⟩ := h.head
  obtain ⟨rfl, rfl⟩ := List.cons.inj he
  have ⟨hq, hs⟩ := blank_apart hc
  rcases hcase with ⟨hn, -⟩ | ⟨hd, -⟩ | ⟨-, -, ho⟩ | ⟨rfl, -⟩ | ⟨rfl, -⟩ | ⟨k, m, hm, hmc, -⟩
  · simp [(nameStart_apart hn).2.1] at hc
  · simp [(digit_apart hd).1] at hc
  · exact ho
  · exact absurd rfl hq
  · exact absurd rfl hs
  · simp [(mark_apart hm hmc).2.2.1] at hc

theorem Lexeme.token_of_quote (h : Lexeme ('"' :: t) o) :
    ∃ b, t = b ++ ['"'] ∧ o = some (.string, String.ofList (unescape b)) := by
  obtain ⟨c', t', he, hcase⟩ := h.head
  obtain ⟨rfl, rfl⟩ := List.cons.inj he
  rcases hcase with ⟨hn, -⟩ | ⟨hd, -⟩ | ⟨hb, -⟩ | ⟨-, b, -, ht, ho⟩ | ⟨hs, -⟩ |
    ⟨k, m, hm, hmc, -⟩
  · exact absurd hn (by decide)
  · exact absurd hd (by decide)
  · exact absurd hb (by decide)
  · exact ⟨b, ht, ho⟩
  · exact absurd hs (by decide)
  · exact absurd rfl (mark_apart hm hmc).2.2.2

theorem Lexeme.token_of_comment {cs : List Char} (h : Lexeme ('/' :: '/' :: cs) o) : o = none := by
  obtain ⟨c', t', he, hcase⟩ := h.head
  obtain ⟨rfl, rfl⟩ := List.cons.inj he
  rcases hcase with ⟨hn, -⟩ | ⟨hd, -⟩ | ⟨hb, -⟩ | ⟨hq, -⟩ | ⟨-, -, -, -, ho⟩ |
    ⟨k, m, hm, hmc, -⟩
  · exact absurd hn (by decide)
  · exact absurd hd (by decide)
  · exact absurd hb (by decide)
  · exact absurd hq (by decide)
  · exact ho
  · exact absurd (mark_slash hm hmc) (List.cons_ne_nil _ _)

/-- No two marks are spelt alike. -/
theorem marks_spelling_unique {k k' : TokenKind} {m : String} (h : (k, m) ∈ marks)
    (h' : (k', m) ∈ marks) : k = k' :=
  congrArg Prod.fst (List.inj_on_of_nodup_map (f := Prod.snd) (by decide) h h' rfl)

theorem Lexeme.token_of_mark {k : TokenKind} {m : String} (hm : (k, m) ∈ marks)
    (hmc : m.toList = c :: t) (h : Lexeme (c :: t) o) : o = some (k, m) := by
  obtain ⟨c', t', he, hcase⟩ := h.head
  obtain ⟨rfl, rfl⟩ := List.cons.inj he
  have ⟨hn, hd, hb, hq⟩ := mark_apart hm hmc
  rcases hcase with ⟨hn', -⟩ | ⟨hd', -⟩ | ⟨hb', -⟩ | ⟨hq', -⟩ | ⟨rfl, cs, rfl, -, -⟩ |
    ⟨k', m', hm', hmc', ho⟩
  · simp [hn] at hn'
  · simp [hd] at hd'
  · simp [hb] at hb'
  · exact absurd hq' hq
  · exact absurd (mark_slash hm hmc) (List.cons_ne_nil _ _)
  · obtain rfl : m' = m := String.toList_inj.1 (hmc'.trans hmc.symm)
    rw [ho, marks_spelling_unique hm' hm]

end Classes

/-- **A text makes one token.** The first character tells which pattern matches the text,
and the text tells the token of that pattern. -/
theorem Lexeme.unique {w : List Char} {o o' : Option (TokenKind × String)} (h : Lexeme w o)
    (h' : Lexeme w o') : o = o' := by
  obtain ⟨c, t, rfl, hcase⟩ := h.head
  rcases hcase with ⟨hn, -, rfl⟩ | ⟨hd, rfl, -⟩ | ⟨hb, -, rfl⟩ | ⟨rfl, b, -, rfl, rfl⟩ |
    ⟨rfl, cs, rfl, -, rfl⟩ | ⟨k, m, hm, hmc, rfl⟩
  · exact (h'.token_of_nameStart hn).symm
  · exact (h'.token_of_digit hd).symm
  · exact (h'.token_of_blank hb).symm
  · obtain ⟨b', hb', rfl⟩ := h'.token_of_quote
    rw [List.append_inj_left' hb' rfl]
  · exact h'.token_of_comment.symm
  · exact (h'.token_of_mark hm hmc).symm

/-! ## Maximal munch reads one way -/

/-- Two longest texts that patterns match at the front of one input are one text. -/
theorem Maximal.eq {w₁ w₂ r₁ r₂ : List Char} {o₁ o₂ : Option (TokenKind × String)}
    (h₁ : Lexeme w₁ o₁) (m₁ : Maximal w₁ (w₁ ++ r₁)) (h₂ : Lexeme w₂ o₂)
    (m₂ : Maximal w₂ (w₂ ++ r₂)) (he : w₁ ++ r₁ = w₂ ++ r₂) : w₁ = w₂ ∧ r₁ = r₂ := by
  have hle₁ : w₂.length ≤ w₁.length := m₁ w₂ o₂ (he ▸ List.prefix_append w₂ r₂) h₂
  have hle₂ : w₁.length ≤ w₂.length := m₂ w₁ o₁ (he ▸ List.prefix_append w₁ r₁) h₁
  have hw : w₁ = w₂ := List.append_inj_left he (by omega)
  subst hw
  exact ⟨rfl, List.append_cancel_left he⟩

namespace Munch

variable {pos : Nat} {cs : List Char} {ts : List Token}

/-- **Maximal munch reads a text in one way.** -/
theorem unique {ts' : List Token} (h : Munch pos cs ts) (h' : Munch pos cs ts') : ts = ts' := by
  induction h generalizing ts' with
  | eof =>
    generalize hc : ([] : List Char) = cs at h'
    cases h' with
    | eof => rfl
    | skip hl => exact absurd (List.append_eq_nil_iff.1 hc.symm).1 hl.ne_nil
    | token hl => exact absurd (List.append_eq_nil_iff.1 hc.symm).1 hl.ne_nil
  | @skip pos w rest ts hl hm _ ih =>
    generalize hc : w ++ rest = cs at h'
    cases h' with
    | eof => exact absurd (List.append_eq_nil_iff.1 hc).1 hl.ne_nil
    | skip hl' hm' h'' =>
      obtain ⟨rfl, rfl⟩ := Maximal.eq hl hm hl' hm' hc
      exact ih h''
    | token hl' hm' =>
      obtain ⟨rfl, rfl⟩ := Maximal.eq hl hm hl' hm' hc
      exact absurd (hl.unique hl') (by simp)
  | @token pos w rest k v ts hl hm _ ih =>
    generalize hc : w ++ rest = cs at h'
    cases h' with
    | eof => exact absurd (List.append_eq_nil_iff.1 hc).1 hl.ne_nil
    | skip hl' hm' =>
      obtain ⟨rfl, rfl⟩ := Maximal.eq hl hm hl' hm' hc
      exact absurd (hl.unique hl') (by simp)
    | token hl' hm' h'' =>
      obtain ⟨rfl, rfl⟩ := Maximal.eq hl hm hl' hm' hc
      obtain ⟨rfl, rfl⟩ : k = _ ∧ v = _ := by simpa using hl.unique hl'
      rw [ih h'']

/-- **A text that maximal munch reads is not one on which it gets stuck.** -/
theorem not_stuck {p : Nat} {c : Char} (h : Munch pos cs ts) : ¬ Stuck pos cs p c := by
  induction h with
  | eof =>
    intro hs
    generalize hc : ([] : List Char) = cs at hs
    cases hs with
    | here => exact List.cons_ne_nil _ _ hc.symm
    | next hl => exact absurd (List.append_eq_nil_iff.1 hc.symm).1 hl.ne_nil
  | @skip pos w rest ts hl hm _ ih | @token pos w rest _ _ ts hl hm _ ih =>
    intro hs
    generalize hc : w ++ rest = cs at hs
    cases hs with
    | here hno => exact hno w _ (hc ▸ List.prefix_append w rest) hl
    | next hl' hm' hs' =>
      obtain ⟨rfl, rfl⟩ := Maximal.eq hl hm hl' hm' hc
      exact ih hs'

end Munch

/-! ## A blank after a token ends it -/

/-- A text that runs past `t` at the front of `t ++ x :: r` takes `x`. -/
theorem mem_of_prefix_of_length_lt {t t' r : List Char} {x : Char} (ht : t' <+: t ++ x :: r)
    (hlt : t.length < t'.length) : x ∈ t' := by
  have hlen : (t ++ [x]).length ≤ t'.length := by
    rw [List.length_append, List.length_singleton]
    omega
  have hp : t ++ [x] <+: t' := List.prefix_of_prefix_length_le (by simp) ht hlen
  exact hp.subset (List.mem_append_right t (List.mem_singleton_self x))

/-- No mark holds a blank. -/
theorem blank_not_mem_mark {k : TokenKind} {m : String} (hm : (k, m) ∈ marks) :
    ' ' ∉ m.toList := by
  have h : ∀ p ∈ marks, ' ' ∉ p.2.toList := by decide
  exact h (k, m) hm

/-- The first character of a token's text is no blank. -/
theorem Lexeme.head_not_blank {c : Char} {t : List Char} {kv : TokenKind × String}
    (h : Lexeme (c :: t) (some kv)) : Text.isBlank c = false := by
  obtain ⟨c', t', he, hcase⟩ := h.head
  obtain ⟨rfl, rfl⟩ := List.cons.inj he
  rcases hcase with ⟨hn, -⟩ | ⟨hd, -⟩ | ⟨-, -, ho⟩ | ⟨rfl, -⟩ | ⟨-, -, -, -, ho⟩ |
    ⟨k, m, hm, hmc, -⟩
  · exact (nameStart_apart hn).2.1
  · exact (digit_apart hd).1
  · simp at ho
  · decide
  · simp at ho
  · exact (mark_apart hm hmc).2.2.1

/-- **A blank after a token's text ends the token.** A longer text at the same place would
take the blank: a name, a number or a mark holds none, a comment starts with two slashes,
and a string literal ends at its first unescaped quote. -/
theorem Lexeme.maximal_before_blank {w : List Char} {kv : TokenKind × String}
    (h : Lexeme w (some kv)) (rest : List Char) : Maximal w (w ++ ' ' :: rest) := by
  obtain ⟨c, t, rfl, hcase⟩ := h.head
  refine Maximal.of_tails fun t' o ht' hl' => ?_
  -- in every case but the string literal: a longer text would hold the blank
  have hlong : ' ' ∉ t' → t'.length ≤ t.length := fun hb =>
    Nat.le_of_not_lt fun hlt => hb (mem_of_prefix_of_length_lt ht' hlt)
  rcases hcase with ⟨hn, -⟩ | ⟨hd, -⟩ | ⟨-, -, ho⟩ | ⟨rfl, b, hbody, rfl, -⟩ |
    ⟨-, -, -, -, ho⟩ | ⟨k, m, hm, hmc, -⟩
  · exact hlong fun hb => absurd (tail_of_nameStart hn hl' _ hb) (by decide)
  · refine hlong fun hb => ?_
    rcases tail_of_digit hd hl' with hdig | ⟨ds, fs, rfl, -, hds, hfs⟩
    · exact absurd (hdig _ hb) (by decide)
    · simp only [List.mem_append, List.mem_cons] at hb
      rcases hb with hb | hb | hb
      · exact absurd (hds _ hb) (by decide)
      · exact absurd hb (by decide)
      · exact absurd (hfs _ hb) (by decide)
  · simp at ho
  · -- both string literals end at the first unescaped quote after the opening one
    obtain ⟨b', hb', rfl⟩ := tail_of_quote hl'
    obtain ⟨u, hu⟩ := ht'
    have hc := stringBody_complete hb' u
    rw [show b' ++ '"' :: u = b ++ '"' :: ' ' :: rest by simpa using hu,
      stringBody_complete hbody] at hc
    obtain ⟨rfl, -⟩ : b = b' ∧ ' ' :: rest = u := by simpa using hc
    exact le_refl _
  · simp at ho
  · rcases tail_of_other (mark_apart hm hmc).1 (mark_apart hm hmc).2.1 (mark_apart hm hmc).2.2.1
      (mark_apart hm hmc).2.2.2 hl' with ⟨rfl, cs, rfl, -⟩ | ⟨k', m', hm', hmc'⟩
    · obtain rfl := mark_slash hm hmc
      exact absurd (List.cons_prefix_cons.1 ht').1 (by decide)
    · exact hlong fun hb => blank_not_mem_mark hm' (hmc' ▸ List.mem_cons_of_mem _ hb)

/-- A blank before a token's text is a longest blank run there. -/
theorem maximal_blank {w rest : List Char} {kv : TokenKind × String} (h : Lexeme w (some kv))
    (hw : w <+: rest) : Maximal [' '] (' ' :: rest) := by
  obtain ⟨c, t, rfl, -⟩ := h.head
  refine Maximal.of_tails fun t' o ht' hl' => ?_
  -- a longer run would take the token's first character, which is no blank
  cases t' with
  | nil => exact Nat.zero_le _
  | cons d t' =>
    obtain ⟨rest', rfl⟩ := hw
    have hd : d = c := (List.cons_prefix_cons.1 ht').1
    have hb := tail_of_blank (by decide) hl' d List.mem_cons_self
    rw [hd, h.head_not_blank] at hb
    exact absurd hb (by decide)

/-- The first text written with a blank between two starts the whole. -/
theorem prefix_intercalate (l : List Char) : ∀ zs : List (List Char), l <+: [' '].intercalate (l :: zs)
  | [] => by simp
  | l' :: zs => by
    rw [List.intercalate_cons_cons, List.append_assoc]
    exact List.prefix_append _ _

/-- **Tokens with a blank between two are read one by one.** When the source text of every
token makes it, maximal munch reads the texts written with a blank between two as these
tokens, then the end mark. -/
theorem munch_spaced {ps : List (TokenKind × String)}
    (hps : ∀ p ∈ ps, Lexeme (sourceText p) (some p)) (pos : Nat) :
    ∃ ts, Munch pos ([' '].intercalate (ps.map sourceText)) ts ∧
      ts.map (fun t => (t.kind, t.value)) = ps ++ [(TokenKind.eof, "EOF")] := by
  induction ps generalizing pos with
  | nil => exact ⟨_, .eof, rfl⟩
  | cons p ps ih =>
    have hp := hps p List.mem_cons_self
    have hps' : ∀ q ∈ ps, Lexeme (sourceText q) (some q) := fun q hq =>
      hps q (List.mem_cons_of_mem _ hq)
    cases ps with
    | nil =>
      -- the last token ends the text
      have hmax : Maximal (sourceText p) (sourceText p ++ []) := fun w _ hw _ => by
        simpa using hw.length_le
      exact ⟨_, by simpa using Munch.token hp hmax .eof, by simp⟩
    | cons q qs =>
      let rest := [' '].intercalate ((q :: qs).map sourceText)
      obtain ⟨ts, hm, hts⟩ := ih hps' (pos + Text.byteLength (sourceText p) + Text.byteLength [' '])
      have hblank : Munch (pos + Text.byteLength (sourceText p)) ([' '] ++ rest) ts :=
        .skip (Lexeme.blank (by simp) fun b hb => by rw [List.mem_singleton.1 hb]; rfl)
          (maximal_blank (hps' q List.mem_cons_self) (prefix_intercalate _ _)) hm
      refine ⟨⟨p.1, p.2, ⟨pos, pos + Text.byteLength (sourceText p)⟩⟩ :: ts, ?_, ?_⟩
      · rw [List.map_cons, List.map_cons, List.intercalate_cons_cons, List.append_assoc]
        exact .token hp (hp.maximal_before_blank rest) hblank
      · simp [hts]

/-- **The scan gives the tokens that maximal munch reads**, once one reading is known, their
offsets kept as positions. -/
theorem scan_of_munch {s : String} {ts : List Token} (h : Munch 0 s.toList ts) :
    scan s = .ok (ts.map atPositions).toArray := by
  rcases scan_munch s with ⟨p, c, -, hs⟩ | ⟨ts', hscan, hm⟩
  · exact absurd hs h.not_stuck
  · rw [hscan, hm.unique h]

/-- Keeping offsets as positions leaves the kinds and values of tokens as they are. -/
theorem kinds_atPositions (ts : List Token) :
    (ts.map atPositions).map (fun t => (t.kind, t.value)) = ts.map (fun t => (t.kind, t.value)) := by
  simp [Function.comp_def]

/-- **The scan reads back tokens written with a blank between two**, when the source text of
every token makes it. -/
theorem scan_spaced {ps : List (TokenKind × String)}
    (hps : ∀ p ∈ ps, Lexeme (sourceText p) (some p)) :
    ∃ toks, scan (String.ofList ([' '].intercalate (ps.map sourceText))) = .ok toks ∧
      toks.toList.map (fun t => (t.kind, t.value)) = ps ++ [(TokenKind.eof, "EOF")] := by
  obtain ⟨ts, hm, hts⟩ := munch_spaced hps 0
  have hs : (String.ofList ([' '].intercalate (ps.map sourceText))).toList =
      [' '].intercalate (ps.map sourceText) := String.toList_ofList
  rw [← hs] at hm
  exact ⟨_, scan_of_munch hm, by rw [List.toList_toArray, kinds_atPositions, hts]⟩

/-! ## The tokens of a printed tree -/

/-- The body written for a text is the body of a string literal. -/
theorem stringBody_escape : ∀ cs, StringBody (escape cs)
  | [] => .nil
  | c :: r => by
    by_cases h : c = '\\' ∨ c = '"'
    · rw [escape, if_pos h]
      exact .escape (by rcases h with rfl | rfl <;> decide) (stringBody_escape r)
    · rw [escape, if_neg h]
      simp only [not_or] at h
      exact .plain h.2 h.1 (stringBody_escape r)

theorem unescape_cons_of_ne {c : Char} (r : List Char) (h : c ≠ '\\') :
    unescape (c :: r) = c :: unescape r := by
  cases r <;> simp [unescape, h]

/-- **A body written for a text denotes that text.** -/
theorem unescape_escape : ∀ cs, unescape (escape cs) = cs
  | [] => rfl
  | c :: r => by
    by_cases h : c = '\\' ∨ c = '"'
    · rw [escape, if_pos h]
      rcases h with rfl | rfl <;> simp [unescape, escaped?, unescape_escape r]
    · rw [escape, if_neg h, unescape_cons_of_ne _ (fun he => h (.inl he)), unescape_escape r]

theorem sourceText_of_ne_string {k : TokenKind} (v : String) (hk : k ≠ .string) :
    sourceText (k, v) = v.toList := by
  cases k <;> simp_all [sourceText]

/-- A mark's text makes its token. -/
theorem lexeme_mark {k : TokenKind} {m : String} (hm : (k, m) ∈ marks) :
    Lexeme (sourceText (k, m)) (some (k, m)) := by
  have hk : ∀ p ∈ marks, p.1 ≠ .string := by decide
  rw [sourceText_of_ne_string m (hk _ hm)]
  exact .mark hm

/-- The operators of the printed class are marks. -/
theorem mark_mem {k : TokenKind} (h : (Parse.Power.ofKind k).isBinary = true ∨ k = .not) :
    mark k ∈ marks := by
  cases k <;> simp [Parse.Power.ofKind, Parse.Power.isBinary] at h <;> decide

/-- An identifier's text makes an identifier token. -/
theorem lexeme_identifier {x : String} (h : isIdentifier x = true) :
    Lexeme (sourceText (.identifier, x)) (some (.identifier, x)) := by
  rw [sourceText_of_ne_string x (by decide)]
  unfold isIdentifier at h
  split at h
  · rename_i c cs hx
    simp only [Bool.and_eq_true, List.all_eq_true, Option.isNone_iff_eq_none] at h
    obtain ⟨⟨hc, hcs⟩, hk⟩ := h
    have hxs : String.ofList (c :: cs) = x := by rw [← hx, String.ofList_toList]
    have hl := Lexeme.name hc hcs
    rw [hxs, wordKind, hk, Option.getD_none] at hl
    rwa [hx]
  · simp at h

/-- A number's digits make a number token. -/
theorem lexeme_number (n : Nat) :
    Lexeme (sourceText (.number, (Literal.int n).text)) (some (.number, (Literal.int n).text)) := by
  have htext : (Literal.int n).text = n.repr := rfl
  rw [sourceText_of_ne_string _ (by decide), htext, Nat.toList_repr]
  have hl := Lexeme.whole (Nat.toDigits_ne_nil (n := n) (b := 10))
    (fun _ hd => Nat.isDigit_of_mem_toDigits (by decide) (by decide) hd)
  rwa [← Nat.repr_eq_ofList_toDigits] at hl

/-- A string literal's escaped text makes its token. -/
theorem lexeme_string (v : String) : Lexeme (sourceText (.string, v)) (some (.string, v)) := by
  have hl := Lexeme.string (stringBody_escape v.toList)
  rwa [unescape_escape, String.ofList_toList] at hl

/-- A string literal written for a text is read as one string token over the whole source,
then the end mark, their offsets kept as positions. -/
theorem scan_string_literal_positions (v : String) :
    scan (String.ofList ('"' :: escape v.toList ++ ['"'])) =
      let n := (String.ofList ('"' :: escape v.toList ++ ['"'])).utf8ByteSize
      .ok #[⟨.string, v, Span.ofOffsets 0 n⟩, ⟨.eof, "EOF", Span.ofOffsets n n⟩] := by
  have hsrc : (String.ofList ('"' :: escape v.toList ++ ['"'])).toList = sourceText (.string, v) :=
    String.toList_ofList
  -- the literal is the whole source, so nothing after it can make a longer text
  have hmax : Maximal (sourceText (.string, v)) (sourceText (.string, v) ++ []) :=
    fun w _ hw _ => by simpa using hw.length_le
  have hm : Munch 0 (sourceText (.string, v) ++ []) _ := Munch.token (lexeme_string v) hmax Munch.eof
  rw [List.append_nil, ← hsrc, Nat.zero_add, byteLength_toList] at hm
  rw [scan_of_munch hm]
  rfl

/-- **A string literal written for a text reads back as that text.** Between two quotes, with
each backslash and each quote escaped, every text whose literal has fewer than `2^32` bytes is
the value of one string token spanning the whole source, and the end mark follows. -/
theorem scan_string_literal (v : String)
    (hsize : (String.ofList ('"' :: escape v.toList ++ ['"'])).utf8ByteSize < 4294967296) :
    scan (String.ofList ('"' :: escape v.toList ++ ['"'])) =
      let n := (String.ofList ('"' :: escape v.toList ++ ['"'])).utf8ByteSize
      .ok #[⟨.string, v, ⟨0, n⟩⟩, ⟨.eof, "EOF", ⟨n, n⟩⟩] := by
  rw [scan_string_literal_positions]
  simp only [Span.ofOffsets, Span.position_of_lt hsize, Span.position_of_lt (Nat.zero_lt_of_lt hsize)]

/-- The literal of `a"b\c` is short enough for its span to be its bytes, and reads back. -/
theorem scan_string_literal_escapes :
    (String.ofList ('"' :: escape "a\"b\\c".toList ++ ['"'])).utf8ByteSize < 4294967296 ∧
    scan (String.ofList ('"' :: escape "a\"b\\c".toList ++ ['"'])) =
      .ok #[⟨.string, "a\"b\\c",
          ⟨0, (String.ofList ('"' :: escape "a\"b\\c".toList ++ ['"'])).utf8ByteSize⟩⟩,
        ⟨.eof, "EOF", ⟨(String.ofList ('"' :: escape "a\"b\\c".toList ++ ['"'])).utf8ByteSize,
          (String.ofList ('"' :: escape "a\"b\\c".toList ++ ['"'])).utf8ByteSize⟩⟩] :=
  ⟨by decide, scan_string_literal "a\"b\\c" (by decide)⟩

/-- A text with no backslash and no quote is written as it is in a string literal. -/
theorem escape_of_plain {cs : List Char} (h : ∀ c ∈ cs, c ≠ '\\' ∧ c ≠ '"') : escape cs = cs := by
  induction cs with
  | nil => rfl
  | cons c r ih =>
    have hc := h c List.mem_cons_self
    rw [escape, if_neg (by rintro (hb | hq) <;> simp_all), ih fun d hd => h d (List.mem_cons_of_mem _ hd)]

/-- **Past `2^32 - 1` bytes the span of a string literal wraps round.** The literal of
`2^32 - 2` letters `a` has `2^32` bytes; it reads back as its text, but its token and the end
mark both sit at position 0. -/
theorem scan_long_string_literal_wraps :
    (String.ofList ('"' :: escape (List.replicate 4294967294 'a') ++ ['"'])).utf8ByteSize =
        4294967296 ∧
      scan (String.ofList ('"' :: escape (String.ofList (List.replicate 4294967294 'a')).toList ++
          ['"'])) =
        .ok #[⟨.string, String.ofList (List.replicate 4294967294 'a'), ⟨0, 0⟩⟩,
          ⟨.eof, "EOF", ⟨0, 0⟩⟩] := by
  have hesc : escape (List.replicate 4294967294 'a') = List.replicate 4294967294 'a' :=
    escape_of_plain fun c hc => by rw [List.eq_of_mem_replicate hc]; decide
  have hlen : (String.ofList ('"' :: escape (List.replicate 4294967294 'a') ++ ['"'])).utf8ByteSize =
      4294967296 := by
    rw [← byteLength_toList, String.toList_ofList, hesc, List.cons_append, Text.byteLength_cons,
      byteLength_append, byteLength_replicate]
    rfl
  refine ⟨hlen, ?_⟩
  rw [scan_string_literal_positions, String.toList_ofList, hlen]
  rfl

end Token

namespace Node

open Token

theorem mem_parenthesise {p : TokenKind × String} {b : Bool} {ts : List (TokenKind × String)}
    (h : p ∈ parenthesise b ts) : p = (.openParen, "(") ∨ p ∈ ts ∨ p = (.closeParen, ")") := by
  unfold parenthesise at h
  split at h <;> simp_all

theorem mem_listPieces {p : TokenKind × String} :
    ∀ {ns : List Node}, p ∈ listPieces ns → p = (.comma, ",") ∨ ∃ n ∈ ns, p ∈ n.pieces
  | [], h => by simp [listPieces] at h
  | [n], h => .inr ⟨n, List.mem_singleton_self n, by simpa [listPieces] using h⟩
  | n :: n' :: ns, h => by
    rw [listPieces.eq_3 n (n' :: ns) (List.cons_ne_nil _ _), List.mem_append, List.mem_cons] at h
    rcases h with h | rfl | h
    · exact .inr ⟨n, List.mem_cons_self, h⟩
    · exact .inl rfl
    · rcases mem_listPieces h with rfl | ⟨m, hm, hp⟩
      · exact .inl rfl
      · exact .inr ⟨m, List.mem_cons_of_mem _ hm, hp⟩

/-- **Every token of a printed tree is made by its source text.** -/
theorem Printable.pieces_lexeme {E : Node} (h : E.Printable) :
    ∀ p ∈ E.pieces, Lexeme (sourceText p) (some p) := by
  have hparen : ∀ {b ts} {p : TokenKind × String}, (∀ q ∈ ts, Lexeme (sourceText q) (some q)) →
      p ∈ parenthesise b ts → Lexeme (sourceText p) (some p) := by
    intro b ts p hts hp
    rcases mem_parenthesise hp with rfl | hp | rfl
    · exact lexeme_mark (by decide)
    · exact hts p hp
    · exact lexeme_mark (by decide)
  have hlist : ∀ {ns} {p : TokenKind × String},
      (∀ n ∈ ns, ∀ q ∈ pieces n, Lexeme (sourceText q) (some q)) →
      p ∈ listPieces ns → Lexeme (sourceText p) (some p) := by
    intro ns p hns hp
    rcases mem_listPieces hp with rfl | ⟨n, hn, hp⟩
    · exact lexeme_mark (by decide)
    · exact hns n hn p hp
  induction h with
  | num => simp only [pieces, formPieces, List.mem_singleton, forall_eq]; exact lexeme_number _
  | ident hx =>
    simp only [pieces, formPieces, List.mem_singleton, forall_eq]
    exact lexeme_identifier (by simp only [isVariable, Bool.and_eq_true] at hx; exact hx.1)
  | str => simp only [pieces, formPieces, List.mem_singleton, forall_eq]; exact lexeme_string _
  | construct hc _ ih =>
    intro p hp
    simp only [pieces, formPieces, List.mem_cons] at hp
    rcases hp with rfl | hp
    · exact lexeme_identifier (by simp only [isConstructor, Bool.and_eq_true] at hc; exact hc.1)
    · split at hp
      · simp at hp
      · simp only [List.mem_append, List.mem_cons, List.not_mem_nil, or_false] at hp
        rcases hp with (rfl | hp) | rfl
        · exact lexeme_mark (by decide)
        · exact hlist ih hp
        · exact lexeme_mark (by decide)
  | list _ ih =>
    intro p hp
    simp only [pieces, formPieces, List.mem_append, List.mem_cons, List.not_mem_nil, or_false] at hp
    rcases hp with (rfl | hp) | rfl
    · exact lexeme_mark (by decide)
    · exact hlist ih hp
    · exact lexeme_mark (by decide)
  | unary hop _ ih =>
    intro p hp
    simp only [pieces, formPieces, List.mem_cons] at hp
    rcases hp with rfl | hp
    · refine lexeme_mark (mark_mem ?_)
      rcases hop with rfl | rfl
      · exact .inl rfl
      · exact .inr rfl
    · exact hparen ih hp
  | binary hop _ _ ihl ihr =>
    intro p hp
    simp only [pieces, formPieces, List.mem_append, List.mem_cons] at hp
    rcases hp with hp | rfl | hp
    · exact hparen ihl hp
    · exact lexeme_mark (mark_mem (.inl hop))
    · exact hparen ihr hp
  | call _ _ ihf ih =>
    intro p hp
    simp only [pieces, formPieces, List.mem_append, List.mem_cons, List.not_mem_nil, or_false] at hp
    rcases hp with (hp | rfl | hp) | rfl
    · exact hparen ihf hp
    · exact lexeme_mark (by decide)
    · exact hlist ih hp
    · exact lexeme_mark (by decide)

/-- **The scan of a printed tree reads its tokens**, then the end mark. -/
theorem Printable.scan_print {E : Node} (h : E.Printable) :
    ∃ toks, Token.scan E.print = .ok toks ∧
      toks.toList.map (fun t => (t.kind, t.value)) = E.pieces ++ [(TokenKind.eof, "EOF")] :=
  scan_spaced h.pieces_lexeme

end Node
end Verve
