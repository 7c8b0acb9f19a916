import Verve.Proofs.Annotations
import Verve.Proofs.Layout

/-!
# Types read back from their display

A type is displayed as a programmer writes it: `H<A, B>` for an application, `fn(A, B): R`
for a function, the name of every declared type and the declared name of a generic. The
display of a type that an annotation denotes is scanned into the tokens the type is read
from, and reading those tokens with the same generic names in scope and the same table gives
the type back, with nothing left before the end mark (`Parse.typeExprOf_display`).

Scanning: `Token.displayText` writes tokens as types are displayed, one after another with a
blank after each comma and each colon, and a type's display is the text of its tokens
(`Ty.display_toList`). `Token.Spells P w ps` says that maximal munch reads the text `w` as
the tokens `ps` whatever follows it, as long as that starts with a character of `P`. A name
spells its token before a character that cannot continue it, a one-character mark before a
character that makes no mark with it, and texts that spell tokens spell them one after the
other (`Token.Spells.append`). The display of every annotation type spells its tokens
before a closing bracket, a comma or the end (`Parse.scansBack`).

Reading: the names of a scanned source are identifiers (`Token.scan_identifiers`), so they
carry no copy mark and each is its own declared name; the reading then goes as
`Parse.readsBackType` says.
-/

namespace Verve

-- tokens compare field by field, so the scan of a fixed source can be checked by evaluation
deriving instance DecidableEq for Token

namespace Token

/-! ## Identifiers that a scan reads -/

/-- A text that makes an identifier token spells an identifier. -/
theorem Lexeme.isIdentifier_value {w : List Char} {k : TokenKind} {v : String}
    (h : Lexeme w (some (k, v))) (hk : k = .identifier) : isIdentifier v = true := by
  cases h with
  | @name c cs hc hcs =>
    -- a keyword makes its own kind, so a name that makes an identifier spells no keyword
    have hnone : TokenKind.keyword? (String.ofList (c :: cs)) = none := by
      cases hkw : TokenKind.keyword? (String.ofList (c :: cs)) with
      | none => rfl
      | some k' =>
        rw [wordKind, hkw, Option.getD_some] at hk
        have := (keyword?_some hkw).1
        rw [hk] at this
        exact absurd this (by decide)
    rw [isIdentifier, String.toList_ofList]
    simp only [hc, List.all_eq_true.2 hcs, hnone, Option.isNone_none, Bool.and_self]
  | whole | fraction | string => exact absurd hk (by decide)
  | mark hm =>
    have hkinds : ∀ p ∈ marks, p.1 ≠ .identifier := by decide
    exact absurd hk (hkinds _ hm)

/-- An identifier is a name start followed by characters that may continue a name. -/
theorem isIdentifier_parts {x : String} (h : isIdentifier x = true) :
    ∃ c cs, x.toList = c :: cs ∧ isNameStart c = true ∧ ∀ d ∈ cs, isNameChar d = true := by
  unfold isIdentifier at h
  split at h
  · rename_i c cs hx
    simp only [Bool.and_eq_true, List.all_eq_true] at h
    exact ⟨c, cs, hx, h.1.1, h.1.2⟩
  · simp at h

/-- **Every identifier token that a scan reads holds an identifier.** -/
theorem scan_identifiers {src : String} {toks : Array Token} (h : scan src = .ok toks) :
    ∀ t ∈ toks.toList, t.kind = .identifier → isIdentifier t.value = true := by
  intro t ht hk
  rcases scan_munch src with ⟨p, c, herr, -⟩ | ⟨ts, hscan, hm⟩
  · rw [h] at herr
    cases herr
  · rw [h, Except.ok.injEq] at hscan
    subst hscan
    -- a recorded token keeps the kind and the value of the token maximal munch read
    rw [List.toList_toArray, List.mem_map] at ht
    obtain ⟨t', ht', rfl⟩ := ht
    obtain ⟨-, w, -, -, -, -, hl⟩ := hm.token_text t' ht' (by rw [← kind_atPositions, hk]; decide)
    exact hl.isIdentifier_value hk

end Token

namespace Ty

/-- An identifier carries no copy mark, so it is its own declared name. -/
theorem declaredName_of_isIdentifier {x : String} (h : Token.isIdentifier x = true) :
    declaredName x = x := by
  obtain ⟨c, cs, hx, hc, hcs⟩ := Token.isIdentifier_parts h
  -- no character of a name is the copy mark
  have hall : ∀ d ∈ x.toList, (d != '#') = true := by
    rw [hx]
    intro d hd
    refine bne_iff_ne.2 ?_
    rintro rfl
    rcases List.mem_cons.1 hd with he | hd
    · exact absurd (he ▸ hc) (by decide)
    · exact absurd (hcs _ hd) (by decide)
  rw [declaredName, List.takeWhile_eq_self_iff.2 hall, String.ofList_toList]

end Ty

namespace Token

/-! ## Texts that maximal munch reads as given tokens -/

/-- The text of tokens written as types are displayed: one after another, with a blank after
each comma and each colon. -/
def displayText : List (TokenKind × String) → List Char
  | [] => []
  | p :: ps => p.2.toList ++ (if p.1 = .comma ∨ p.1 = .colon then [' '] else []) ++ displayText ps

@[simp] theorem displayText_nil : displayText [] = [] := rfl

@[simp] theorem displayText_append (ps qs : List (TokenKind × String)) :
    displayText (ps ++ qs) = displayText ps ++ displayText qs := by
  induction ps with
  | nil => rfl
  | cons p ps ih => simp [displayText, ih]

/-- The text `r` is empty or starts with a character of `P`. -/
def Starts (P : Char → Prop) : List Char → Prop
  | [] => True
  | c :: _ => P c

/-- A text that starts with a character of `P` still does with more after it. -/
theorem Starts.append {P : Char → Prop} {w r : List Char} (h : Starts P w) (hw : w ≠ []) :
    Starts P (w ++ r) := by
  cases w with
  | nil => exact absurd rfl hw
  | cons c _ => exact h

/-- A text that starts with a character of `P` starts with one of a wider class. -/
theorem Starts.mono {P Q : Char → Prop} {w : List Char} (h : Starts P w) (hPQ : ∀ c, P c → Q c) :
    Starts Q w := by
  cases w with
  | nil => trivial
  | cons c _ => exact hPQ c h

/-- The tokens and values of a token list. -/
abbrev kindsValues (ts : List Token) : List (TokenKind × String) :=
  ts.map fun t => (t.kind, t.value)

/-- Maximal munch reads the text `w` as the tokens `ps`, followed by what it reads of any text
after `w` that starts with a character of `P`. -/
def Spells (P : Char → Prop) (w : List Char) (ps : List (TokenKind × String)) : Prop :=
  ∀ pos rest ts, Starts P rest → Munch (pos + Text.byteLength w) rest ts →
    ∃ ts', Munch pos (w ++ rest) ts' ∧ kindsValues ts' = ps ++ kindsValues ts

namespace Spells

variable {P Q : Char → Prop} {w w₁ w₂ : List Char} {ps ps₁ ps₂ : List (TokenKind × String)}

theorem mono (h : Spells Q w ps) (hPQ : ∀ c, P c → Q c) : Spells P w ps := by
  intro pos rest ts hrest hm
  refine h pos rest ts ?_ hm
  cases rest with
  | nil => trivial
  | cons c _ => exact hPQ c hrest

/-- Two texts that spell tokens spell them one after the other, when the second starts with
a character that may follow the first. -/
theorem append (h₁ : Spells P w₁ ps₁) (h₂ : Spells Q w₂ ps₂) (hw : w₂ ≠ []) (hs : Starts P w₂) :
    Spells Q (w₁ ++ w₂) (ps₁ ++ ps₂) := by
  intro pos rest ts hrest hm
  rw [byteLength_append, ← Nat.add_assoc] at hm
  obtain ⟨ts₂, hm₂, hts₂⟩ := h₂ (pos + Text.byteLength w₁) rest ts hrest hm
  obtain ⟨ts₁, hm₁, hts₁⟩ := h₁ pos (w₂ ++ rest) ts₂ (hs.append hw) hm₂
  exact ⟨ts₁, by rwa [List.append_assoc], by rw [hts₁, hts₂, List.append_assoc]⟩

/-- The text of a token spells it when no character of `P` after it makes a longer text. -/
theorem token {k : TokenKind} {v : String} (h : Lexeme w (some (k, v)))
    (hmax : ∀ c r, P c → Maximal w (w ++ c :: r)) : Spells P w [(k, v)] := by
  intro pos rest ts hrest hm
  have hmax' : Maximal w (w ++ rest) := by
    cases rest with
    | nil => exact fun w' _ hw _ => by simpa using hw.length_le
    | cons c r => exact hmax c r hrest
  exact ⟨_, .token h hmax' hm, rfl⟩

/-- A blank before a character that is no blank is skipped. -/
theorem blank : Spells (fun c => Text.isBlank c = false) [' '] [] := by
  intro pos rest ts hrest hm
  -- a longer blank run would take the character after the blank
  have hmax : Maximal [' '] ([' '] ++ rest) := by
    refine Maximal.of_tails fun t o ht hl => ?_
    cases t with
    | nil => exact le_refl _
    | cons d t =>
      cases rest with
      | nil => exact absurd ht (by simp)
      | cons c r =>
        obtain ⟨rfl, -⟩ := List.cons_prefix_cons.1 ht
        have hb := tail_of_blank (by decide) hl d List.mem_cons_self
        rw [hrest] at hb
        exact absurd hb (by decide)
  have hlex : Lexeme [' '] none :=
    Lexeme.blank (by simp) fun b hb => by rw [List.mem_singleton.1 hb]; rfl
  exact ⟨ts, .skip hlex hmax hm, rfl⟩

end Spells

/-- A name ends before a character that cannot continue it. -/
theorem maximal_word {c d : Char} {cs r : List Char} (hc : isNameStart c = true)
    (hd : isNameChar d = false) : Maximal (c :: cs) (c :: cs ++ d :: r) := by
  refine Maximal.of_tails fun t o ht hl => Nat.le_of_not_lt fun hlt => ?_
  have hname := tail_of_nameStart hc hl d (mem_of_prefix_of_length_lt ht hlt)
  rw [hd] at hname
  exact absurd hname (by decide)

/-- A one-character mark other than the slash ends before a character that makes no mark
with it. -/
theorem maximal_mark {k : TokenKind} {m : String} {x d : Char} {r : List Char}
    (hm : (k, m) ∈ marks) (hx : m.toList = [x]) (hslash : x ≠ '/')
    (hd : ∀ p ∈ marks, p.2.toList.take 2 ≠ [x, d]) : Maximal [x] ([x] ++ d :: r) := by
  refine Maximal.of_tails fun t o ht hl => ?_
  cases t with
  | nil => exact le_refl _
  | cons e t =>
    obtain ⟨rfl, -⟩ := List.cons_prefix_cons.1 ht
    obtain ⟨hn, hdig, hb, hq⟩ := mark_apart hm hx
    rcases tail_of_other hn hdig hb hq hl with ⟨hs, -⟩ | ⟨k', m', hm', hmc'⟩
    · exact absurd hs hslash
    · exact absurd (by rw [hmc']; rfl) (hd (k', m') hm')

/-- No mark has a name start as its second character. -/
theorem marks_take_two_ne {x d : Char} (hd : isNameStart d = true) :
    ∀ p ∈ marks, p.2.toList.take 2 ≠ [x, d] := by
  -- computed as a test over the table, not as a bounded quantifier over characters
  have hsecond :
      (marks.all fun p => ((p.2.toList.take 2).drop 1).all fun e => !isNameStart e) = true := by
    decide
  intro p hp heq
  have he := List.all_eq_true.1 (List.all_eq_true.1 hsecond p hp) d (by rw [heq]; simp)
  rw [hd] at he
  exact absurd he (by decide)

namespace Spells

/-- A name spells its token before a character that cannot continue it. -/
theorem word {c : Char} {cs : List Char} {k : TokenKind} {v : String}
    (h : Lexeme (c :: cs) (some (k, v))) (hc : isNameStart c = true) :
    Spells (fun d => isNameChar d = false) (c :: cs) [(k, v)] :=
  token h fun _ _ hd => maximal_word hc hd

/-- A one-character mark other than the slash spells its token before a character that
makes no mark with it. -/
theorem mark {k : TokenKind} {m : String} {x : Char} (hm : (k, m) ∈ marks) (hx : m.toList = [x])
    (hslash : x ≠ '/') :
    Spells (fun d => ∀ p ∈ marks, p.2.toList.take 2 ≠ [x, d]) [x] [(k, m)] :=
  token (hx ▸ Lexeme.mark hm) fun _ _ hd => maximal_mark hm hx hslash hd

/-- A one-character mark other than the slash spells its token before a name or before one of
the characters `S` that make no mark with it. -/
theorem mark_before {k : TokenKind} {m : String} {x : Char} {S : List Char} (hm : (k, m) ∈ marks)
    (hx : m.toList = [x]) (hslash : x ≠ '/')
    (hS : (S.all fun d => marks.all fun p => p.2.toList.take 2 != [x, d]) = true) :
    Spells (fun d => isNameStart d = true ∨ d ∈ S) [x] [(k, m)] :=
  (mark hm hx hslash).mono fun d hd => hd.elim marks_take_two_ne fun hdS p hp =>
    bne_iff_ne.1 (List.all_eq_true.1 (List.all_eq_true.1 hS d hdS) p hp)

/-- An identifier spells its token before a character that cannot continue it. -/
theorem identifier {x : String} (h : isIdentifier x = true) :
    Spells (fun d => isNameChar d = false) x.toList [(.identifier, x)] := by
  have hl := lexeme_identifier h
  rw [sourceText_of_ne_string x (by decide)] at hl
  obtain ⟨c, cs, hx, hc, -⟩ := isIdentifier_parts h
  rw [hx] at hl ⊢
  exact word hl hc

end Spells

end Token

namespace Ty

/-! ## The display of a type is the text of its tokens -/

mutual

theorem spellOnto_display : ∀ (t : Ty) (acc : String),
    (t.spellOnto .display acc).toList = acc.toList ++ Token.displayText t.pieces
  | .basic n, acc => by simp [spellOnto, pieces, Token.displayText]
  | .generic n, acc => by simp [spellOnto, Spelling.display, pieces, Token.displayText]
  | .app h as, acc => by
    rw [spellOnto, String.toList_append, spellListOnto_display, String.toList_append,
      spellOnto_display h]
    simp [pieces, Token.displayText]
  | .fn _ ps r _ _, acc => by
    rw [spellOnto, spellOnto_display r, String.toList_append, spellListOnto_display,
      String.toList_append]
    simp [pieces, Token.displayText]
  | .iface r, acc => by simp [spellOnto, Spelling.display, pieces, Token.displayText]
  | .enum r, acc => by simp [spellOnto, pieces, Token.displayText]
  | .data r, acc => by simp [spellOnto, pieces, Token.displayText]
  | .ctor _ n _ _ _, acc => by simp [spellOnto, pieces, Token.displayText]

theorem spellListOnto_display : ∀ (ts : List Ty) (acc : String),
    (spellListOnto .display ts acc).toList = acc.toList ++ Token.displayText (piecesList ts)
  | [], acc => by simp [spellListOnto, piecesList]
  | [t], acc => by rw [spellListOnto, spellOnto_display, piecesList]
  | t :: u :: ts, acc => by
    rw [spellListOnto, spellListOnto_display, String.toList_append, spellOnto_display]
    simp [piecesList, Token.displayText]

end

/-- The display of a type is the text of its tokens as types are displayed. -/
theorem display_toList (t : Ty) : t.display.toList = Token.displayText t.pieces := by
  rw [display, spell, spellOnto_display]
  rfl

end Ty


namespace Parse

open Token

/-! ## The display of an annotation type scans as its tokens -/

/-- What may follow a type in a display: a closing angle bracket, a comma or a closing
parenthesis. -/
def AfterType (c : Char) : Prop := c ∈ ['>', ',', ')']

instance (c : Char) : Decidable (AfterType c) := inferInstanceAs (Decidable (c ∈ _))

theorem AfterType.apart {c : Char} (h : AfterType c) :
    isNameChar c = false ∧ Text.isBlank c = false := by
  simp only [AfterType, List.mem_cons, List.not_mem_nil, or_false] at h
  rcases h with rfl | rfl | rfl <;> decide

/-- The display text of `t` starts with a name and scans as the tokens of `t`, whatever may
follow a type after it. -/
def ScansBack (t : Ty) : Prop :=
  Spells AfterType (displayText t.pieces) t.pieces ∧
    ∃ c w, displayText t.pieces = c :: w ∧ isNameStart c = true

/-- Types separated by a comma and a blank, then the character `x` that closes them, scan as
their tokens and the closing token. The text starts with a name or with `x`. -/
theorem scansBack_list {P : Char → Prop} {x : Char} {q : TokenKind × String} (hx : AfterType x)
    (hclose : Spells P [x] [q]) : ∀ args : List Ty, (∀ a ∈ args, ScansBack a) →
      Spells P (displayText (Ty.piecesList args) ++ [x]) (Ty.piecesList args ++ [q]) ∧
        Starts (fun c => isNameStart c = true ∨ c ∈ [x]) (displayText (Ty.piecesList args) ++ [x])
  | [], _ => ⟨by simpa [Ty.piecesList] using hclose, by simp [Ty.piecesList, Starts]⟩
  | [a], hargs => by
    obtain ⟨ha, c, w, hw, hc⟩ := hargs a List.mem_cons_self
    rw [Ty.piecesList]
    refine ⟨ha.append hclose (by simp) hx, ?_⟩
    rw [hw]
    exact Or.inl hc
  | a :: b :: bs, hargs => by
    obtain ⟨ha, c, w, hw, hc⟩ := hargs a List.mem_cons_self
    have hrest := scansBack_list hx hclose (b :: bs) fun a' ha' =>
      hargs a' (List.mem_cons_of_mem _ ha')
    -- after the comma comes a blank, then the next type
    have hcomma : Spells (fun d => isNameStart d = true ∨ d ∈ [' ']) [','] [(.comma, ",")] :=
      Spells.mark_before (by decide) (by decide) (by decide) (by decide)
    have hblank := Spells.blank.append hrest.1 (by simp) (hrest.2.mono fun d hd =>
      hd.elim (fun hd => (nameStart_apart hd).2.1)
        fun hd => (List.mem_singleton.1 hd ▸ hx).apart.2)
    have htext : displayText (Ty.piecesList (a :: b :: bs)) ++ [x] = displayText a.pieces ++
        ([','] ++ ([' '] ++ (displayText (Ty.piecesList (b :: bs)) ++ [x]))) := by
      simp [Ty.piecesList, displayText]
    have hpieces : Ty.piecesList (a :: b :: bs) ++ [q] = a.pieces ++
        ([(TokenKind.comma, ",")] ++ ([] ++ (Ty.piecesList (b :: bs) ++ [q]))) := by
      simp [Ty.piecesList]
    rw [htext, hpieces]
    refine ⟨ha.append (hcomma.append hblank (by simp) (Or.inr (List.mem_singleton_self _)))
      (by simp) (show AfterType ',' by decide), ?_⟩
    rw [hw]
    exact Or.inl hc

/-- **The display of an annotation type scans as its tokens**, when every name it is read from
is an identifier and every type in the table is declared under its own name. -/
theorem scansBack {N : String → Prop} (hN : ∀ x, N x → isIdentifier x = true) {G : List String}
    {D : Decls} (hD : D.TypesNamed) {t : Ty} (ht : Denotes N G D t) : ScansBack t := by
  induction ht with
  | @name x t hx hb =>
    obtain ⟨c, cs, hxs, hc, -⟩ := isIdentifier_parts (hN x hx)
    have htext : displayText [(.identifier, x)] = x.toList := by simp [displayText]
    rw [ScansBack, hb.pieces (Ty.declaredName_of_isIdentifier (hN x hx)) hD, htext]
    exact ⟨(Spells.identifier (hN x hx)).mono fun d hd => hd.apart.1, c, cs, hxs, hc⟩
  | @app x h args hx hb _ ih =>
    have hhead := hb.pieces (Ty.declaredName_of_isIdentifier (hN x hx)) hD
    have hclose : Spells AfterType ['>'] [(.greater, ">")] :=
      (Spells.mark_before (S := ['>', ',', ')']) (by decide) (by decide) (by decide)
        (by decide)).mono fun _ hd => Or.inr hd
    have hlist := scansBack_list (show AfterType '>' by decide) hclose args ih
    have hless : Spells (fun d => isNameStart d = true ∨ d ∈ ['>']) ['<'] [(.less, "<")] :=
      Spells.mark_before (by decide) (by decide) (by decide) (by decide)
    have htext : displayText (Ty.app h args).pieces =
        x.toList ++ (['<'] ++ (displayText (Ty.piecesList args) ++ ['>'])) := by
      simp [Ty.pieces, hhead, displayText]
    have hpieces : (Ty.app h args).pieces = [(TokenKind.identifier, x)] ++
        ([(TokenKind.less, "<")] ++ (Ty.piecesList args ++ [(TokenKind.greater, ">")])) := by
      simp [Ty.pieces, hhead]
    obtain ⟨c, cs, hxs, hc, -⟩ := isIdentifier_parts (hN x hx)
    rw [ScansBack, htext, hpieces, hxs]
    refine ⟨?_, c, _, rfl, hc⟩
    rw [← hxs]
    exact (Spells.identifier (hN x hx)).append (hless.append hlist.1 (by simp) hlist.2) (by simp)
      (show isNameChar '<' = false by decide)
  | @fn ps r _ _ ihps ihr =>
    have hword : Lexeme ['f', 'n'] (some (.kwFn, "fn")) := by
      have hl : Lexeme ['f', 'n'] _ := Lexeme.name (by decide) (List.forall_mem_singleton.2 rfl)
      rwa [show String.ofList ['f', 'n'] = "fn" by decide, show wordKind "fn" = .kwFn by decide]
        at hl
    have hfn := Spells.word hword (by decide)
    have hopen : Spells (fun d => isNameStart d = true ∨ d ∈ [')']) ['('] [(.openParen, "(")] :=
      Spells.mark_before (by decide) (by decide) (by decide) (by decide)
    have hclose : Spells (fun d => isNameStart d = true ∨ d ∈ [':']) [')'] [(.closeParen, ")")] :=
      Spells.mark_before (by decide) (by decide) (by decide) (by decide)
    have hlist := scansBack_list (show AfterType ')' by decide) hclose ps ihps
    have hcolon : Spells (fun d => isNameStart d = true ∨ d ∈ [' ']) [':'] [(.colon, ":")] :=
      Spells.mark_before (by decide) (by decide) (by decide) (by decide)
    obtain ⟨hr, c, w, hw, hc⟩ := ihr
    have hret := Spells.blank.append hr (by simp [hw]) (by rw [hw]; exact (nameStart_apart hc).2.1)
    have htext : displayText (Ty.fn "fn" ps r [] none).pieces = ['f', 'n'] ++ (['('] ++
        ((displayText (Ty.piecesList ps) ++ [')']) ++ ([':'] ++ ([' '] ++ displayText r.pieces)))) := by
      simp [Ty.pieces, displayText]
    have hpieces : (Ty.fn "fn" ps r [] none).pieces = [(TokenKind.kwFn, "fn")] ++
        ([(TokenKind.openParen, "(")] ++ ((Ty.piecesList ps ++ [(TokenKind.closeParen, ")")]) ++
          ([(TokenKind.colon, ":")] ++ ([] ++ r.pieces)))) := by
      simp [Ty.pieces]
    rw [ScansBack, htext, hpieces]
    refine ⟨?_, 'f', _, rfl, by decide⟩
    exact hfn.append (hopen.append (hlist.1.append (hcolon.append hret (by simp)
      (Or.inr (List.mem_singleton_self _))) (by simp) (Or.inr (List.mem_singleton_self _)))
      (by simp) (hlist.2.append (by simp))) (by simp) (show isNameChar '(' = false by decide)

/-- A token other than the end mark that `tokenAt` gives is one of the tokens. -/
theorem tokenAt_mem {toks : Array Token} {i : Nat} (h : (tokenAt toks i).kind ≠ .eof) :
    tokenAt toks i ∈ toks.toList := by
  unfold tokenAt at h ⊢
  cases hget : toks[min i (toks.size - 1)]? with
  | none =>
    rw [hget] at h
    exact absurd rfl h
  | some t =>
    obtain ⟨hlt, heq⟩ := Array.getElem?_eq_some_iff.1 hget
    rw [Option.getD_some, ← heq, Array.mem_toList_iff]
    exact Array.getElem_mem hlt

/-- The display of an annotation type scans as its tokens, then the end mark. -/
theorem scan_display {N : String → Prop} (hN : ∀ x, N x → isIdentifier x = true)
    {G : List String} {D : Decls} (hD : D.TypesNamed) {t : Ty} (ht : Denotes N G D t) :
    ∃ toks, scan t.display = .ok toks ∧
      toks.toList.map (fun t => (t.kind, t.value)) = t.pieces ++ [(TokenKind.eof, "EOF")] := by
  obtain ⟨ts, hm, hts⟩ := (scansBack hN hD ht).1 0 [] _ trivial .eof
  rw [List.append_nil, ← Ty.display_toList] at hm
  exact ⟨_, scan_of_munch hm, by rw [List.toList_toArray, kinds_atPositions]; exact hts⟩

/-- Tokens whose kinds and values are those of an annotation type and then the end mark are
read as that type, with nothing left before the end mark. -/
theorem typeExprOf_of_map {N : String → Prop} (hN : ∀ x, N x → Ty.declaredName x = x)
    {G : List String} {D : Decls} (hD : D.TypesNamed) {t : Ty} (ht : Denotes N G D t)
    {toks : Array Token}
    (hmap : toks.toList.map (fun t => (t.kind, t.value)) = t.pieces ++ [(TokenKind.eof, "EOF")]) :
    typeExprOf toks D G = .ok (t, false) := by
  have hsize : toks.size = t.pieces.length + 1 := by
    simpa using congrArg List.length hmap
  have hrun := run_typeExpr_of_map hN hD ht hmap
    (show t.pieces.length < fuelFor toks by rw [fuelFor, hsize]; omega)
  have hend := tokenAt_of_map hmap (i := t.pieces.length) (by simp)
  rw [List.getElem_append_right (by simp)] at hend
  simp only [Nat.sub_self, List.getElem_cons_zero, Prod.mk.injEq] at hend
  unfold typeExprOf
  simp only [withEnd_of_map hmap]
  rw [run_bind_ok hrun, run_bind_ok (run_current _)]
  simp only [hend.1, ne_eq, not_true_eq_false, decide_false]
  rfl

/-- **A type read from a scanned source reads back from its display.** Scanning the display of
an annotation type and reading it with the same generic names in scope and the same table
gives that type, with no token left before the end mark. -/
theorem typeExprOf_display {src : String} {s s' : State} {fuel : Nat} {t : Ty}
    (hscan : scan src = .ok s.tokens) (hD : s.decls.TypesNamed)
    (ht : (typeExpr fuel).run s = .ok (t, s')) :
    ∃ toks, scan t.display = .ok toks ∧ typeExprOf toks s.decls s.generics = .ok (t, false) := by
  -- every name the annotation is read from is an identifier of the source
  have hin : InScope (fun x => isIdentifier x = true) s.generics s.decls s :=
    ⟨rfl, rfl, fun i hk => scan_identifiers hscan _ (tokenAt_mem (by rw [hk]; decide)) hk⟩
  have hden := (typeExpr_denotes fuel s t s' hin ht).2
  obtain ⟨toks, hdisplay, hmap⟩ := scan_display (fun _ h => h) hD hden
  exact ⟨toks, hdisplay,
    typeExprOf_of_map (fun _ h => Ty.declaredName_of_isIdentifier h) hD hden hmap⟩

/-- `List<fn(Int): T>`, read with `T` in scope from the tokens of its source, reads back from its
display. -/
theorem typeExprOf_display_list_of_fn :
    let s : State := ⟨#[⟨.identifier, "List", ⟨0, 4⟩⟩, ⟨.less, "<", ⟨4, 5⟩⟩,
      ⟨.kwFn, "fn", ⟨5, 7⟩⟩, ⟨.openParen, "(", ⟨7, 8⟩⟩, ⟨.identifier, "Int", ⟨8, 11⟩⟩,
      ⟨.closeParen, ")", ⟨11, 12⟩⟩, ⟨.colon, ":", ⟨12, 13⟩⟩, ⟨.identifier, "T", ⟨14, 15⟩⟩,
      ⟨.greater, ">", ⟨15, 16⟩⟩, ⟨.eof, "EOF", ⟨16, 16⟩⟩], 0, Decls.initial, ["T"]⟩
    let t : Ty := .app (.enum Decls.listRef) [.fn "fn" [.basic "Int"] (.generic "T") [] none]
    scan "List<fn(Int): T>" = .ok s.tokens ∧ s.decls.TypesNamed ∧
      (typeExpr 10).run s = .ok (t, { s with pos := 9 }) ∧
      ∃ toks, scan t.display = .ok toks ∧ typeExprOf toks s.decls s.generics = .ok (t, false) := by
  intro s t
  have hscan : scan "List<fn(Int): T>" = .ok s.tokens := by
    have h : (scan "List<fn(Int): T>").toOption = some s.tokens := by decide +kernel
    cases hs : scan "List<fn(Int): T>" with
    | error e => rw [hs] at h; cases h
    | ok toks => rw [hs] at h; cases h; rfl
  have hD : s.decls.TypesNamed := Decls.typesNamed_initial
  -- the annotation denotes `t`: `List` and `Int` are declared, `T` is the generic in scope
  have hInt : Denotes (isIdentifier · = true) ["T"] Decls.initial (.basic "Int") :=
    .name (x := "Int") (by decide) (.inr ⟨by decide, rfl⟩)
  have hT : Denotes (isIdentifier · = true) ["T"] Decls.initial (.generic "T") :=
    .name (x := "T") (by decide) (.inl ⟨by decide, rfl⟩)
  have hden : Denotes (isIdentifier · = true) ["T"] Decls.initial t :=
    .app (x := "List") (by decide) (.inr ⟨by decide, rfl⟩)
      (by simpa using Denotes.fn (by simpa using hInt) hT)
  have hrun : (typeExpr 10).run s = .ok (t, { s with pos := 9 }) :=
    run_typeExpr_of_map (fun _ h => Ty.declaredName_of_isIdentifier h) hD hden (by decide)
      (by decide)
  exact ⟨hscan, hD, hrun, typeExprOf_display hscan hD hrun⟩

end Parse

end Verve
