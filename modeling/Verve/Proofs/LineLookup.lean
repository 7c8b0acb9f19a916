import Verve.Text.Lines
import Verve.Proofs.Munch

/-!
# Finding the line of a position

`Text.lineAt content pos` names the line that holds byte `pos` of `content`. Its answer is
exact at every boundary (`Text.lineAt_places`): past the end there is no line; otherwise
`content` is the lines before, the line found and the rest, the lines before are whole lines
and as many as the line number says, and the offset is what is left of `pos` after them. The
offset falls inside the line found, except at the very end of the text, where it is the end of
the last line, or, for an empty text, the start of an empty first line.

The proof cuts the text into lines once (`Text.lines_cut`, `Text.flatten_lines`) and follows
the walk over them line by line (`Text.findLine_places`).
-/

namespace Verve
namespace Text

open Token (byteLength_append byteLength_pos byteLength_toList)

/-- A whole line: characters without a line break, then a line break. -/
def EndsLine (l : List Char) : Prop := ∃ b, '\n' ∉ b ∧ l = b ++ ['\n']

/-- Lines cut from a text: whole lines, then possibly a last part without a line break; no
line is empty. -/
inductive Cut : List (List Char) → Prop
  | nil : Cut []
  | last {l : List Char} : l ≠ [] → '\n' ∉ l → Cut [l]
  | line {l : List Char} {ls : List (List Char)} : EndsLine l → Cut ls → Cut (l :: ls)

theorem EndsLine.ne_nil {l : List Char} (h : EndsLine l) : l ≠ [] := by
  obtain ⟨b, -, rfl⟩ := h
  simp

/-- The first line of lines cut from a text is a whole line before more lines, or the last
part. -/
theorem Cut.cons_inv {l : List Char} {ls : List (List Char)} (h : Cut (l :: ls)) :
    (EndsLine l ∧ Cut ls) ∨ (l ≠ [] ∧ '\n' ∉ l ∧ ls = []) := by
  cases h with
  | last hl hn => exact .inr ⟨hl, hn, rfl⟩
  | line hl hls => exact .inl ⟨hl, hls⟩

/-- In lines cut from a text, those before any line are whole lines, and the line is a whole
line or the last part, and not empty. -/
theorem Cut.split {t : List Char} {post : List (List Char)} :
    ∀ {pre : List (List Char)}, Cut (pre ++ t :: post) →
      (∀ l ∈ pre, EndsLine l) ∧ (EndsLine t ∨ ('\n' ∉ t ∧ post = [])) ∧ t ≠ []
  | [], h => by
    rcases h.cons_inv with ⟨ht, -⟩ | ⟨hne, hn, rfl⟩
    · exact ⟨nofun, .inl ht, ht.ne_nil⟩
    · exact ⟨nofun, .inr ⟨hn, rfl⟩, hne⟩
  | l :: pre, h => by
    rcases h.cons_inv with ⟨hl, hrest⟩ | ⟨-, -, hnil⟩
    · obtain ⟨hpre, ht, hne⟩ := Cut.split hrest
      exact ⟨fun l' hl' => (List.mem_cons.1 hl').elim (· ▸ hl) (hpre l'), ht, hne⟩
    · simp at hnil

/-- The lines begun with the reversed characters `cur` hold `cur` and then the text. -/
theorem flatten_linesFrom (cur : List Char) (cs : List Char) :
    (linesFrom cur cs).flatten = cur.reverse ++ cs := by
  induction cs generalizing cur with
  | nil =>
    unfold linesFrom
    split_ifs with h
    · simp [List.isEmpty_iff.1 h]
    · simp
  | cons c cs ih =>
    unfold linesFrom
    split_ifs
    · simp [ih]
    · simp [ih]

theorem cut_linesFrom {cur : List Char} (hcur : '\n' ∉ cur) (cs : List Char) :
    Cut (linesFrom cur cs) := by
  induction cs generalizing cur with
  | nil =>
    unfold linesFrom
    split_ifs with h
    · exact .nil
    · exact .last (by simpa using h) (by simpa using hcur)
  | cons c cs ih =>
    unfold linesFrom
    split_ifs with hc
    · -- a line break closes the line read so far
      refine .line ⟨cur.reverse, by simpa using hcur, by simp [hc]⟩ (ih (by simp))
    · exact ih (by simp [hcur, Ne.symm hc])

/-- The lines of a text hold the text. -/
theorem flatten_lines (cs : List Char) : (lines cs).flatten = cs := by
  unfold lines
  simpa using flatten_linesFrom [] cs

/-- The lines of a text are whole lines, then possibly a last part without a break. -/
theorem lines_cut (cs : List Char) : Cut (lines cs) := cut_linesFrom (by simp) cs

/-- The walk over lines numbered from `n` and starting at byte `start` stops at the line `t`
of `ls = pre ++ t :: post` that holds `pos`, with the offset of `pos` in it; a position at the
end of the last line is at its end. -/
theorem findLine_places (pos : Nat) :
    ∀ (n start : Nat) (ls : List (List Char)), ls ≠ [] → start ≤ pos →
      pos ≤ start + byteLength ls.flatten →
      ∃ pre t post, ls = pre ++ t :: post ∧
        (findLine pos n start ls).number = n + pre.length ∧
        (findLine pos n start ls).text = String.ofList t ∧
        start + byteLength pre.flatten + (findLine pos n start ls).offset = pos ∧
        ((findLine pos n start ls).offset < byteLength t ∨
          (post = [] ∧ (findLine pos n start ls).offset = byteLength t))
  | _, _, [], hne, _, _ => absurd rfl hne
  | n, start, [l], _, hs, hp => by
    simp only [List.flatten_cons, List.flatten_nil, List.append_nil] at hp
    refine ⟨[], l, [], rfl, ?_⟩
    unfold findLine
    dsimp only
    split_ifs with h
    · refine ⟨rfl, rfl, ?_, .inl ?_⟩
      · simp only [List.flatten_nil, byteLength_nil]
        omega
      · dsimp only
        omega
    · refine ⟨rfl, rfl, ?_, .inr ⟨rfl, rfl⟩⟩
      simp only [List.flatten_nil, byteLength_nil]
      omega
  | n, start, l :: l' :: ls, _, hs, hp => by
    unfold findLine
    dsimp only
    split_ifs with h
    · refine ⟨[], l, l' :: ls, rfl, rfl, rfl, ?_, .inl ?_⟩
      · simp only [List.flatten_nil, byteLength_nil]
        omega
      · dsimp only
        omega
    · -- the position lies past this line: the walk goes on from the next one
      have hw : start + byteLength l ≤ pos := by omega
      rw [List.flatten_cons, byteLength_append] at hp
      obtain ⟨pre, t, post, hls, hn, ht, ho, hin⟩ :=
        findLine_places pos (n + 1) (start + byteLength l) (l' :: ls) (by simp) hw
          (by omega)
      refine ⟨l :: pre, t, post, by rw [hls]; rfl, by rw [hn]; simp; omega, ht, ?_, hin⟩
      rw [List.flatten_cons, byteLength_append]
      omega

/-- **The line of a position is exact at every boundary.** Past the end of `content` there is
no line. Otherwise `content` is `pre ++ t ++ rest`, where `pre` is the lines `ls` before the
line, each a whole line, one fewer than the line number; `t`, the line's text, is a whole line
or the last part of the text without a break; and the position is `offset` bytes past `pre`.
The offset lies inside `t` before the end of the text; at the end it is the end of the last
line, or, for an empty text, the line is the empty first line at offset 0. -/
theorem lineAt_places (content : String) (pos : Nat) :
    (lineAt content pos = none ↔ content.utf8ByteSize < pos) ∧
    ∀ L, lineAt content pos = some L →
      ∃ (ls : List (List Char)) (rest : List Char), content.toList = ls.flatten ++ L.text.toList ++ rest ∧
        (∀ l ∈ ls, EndsLine l) ∧ L.number = ls.length + 1 ∧
        (EndsLine L.text.toList ∨ ('\n' ∉ L.text.toList ∧ rest = [])) ∧
        byteLength ls.flatten + L.offset = pos ∧
        (pos < content.utf8ByteSize → L.offset < byteLength L.text.toList) ∧
        (pos = content.utf8ByteSize →
          (rest = [] ∧ L.text ≠ "" ∧ L.offset = byteLength L.text.toList) ∨
          (content = "" ∧ L.number = 1 ∧ L.text = "" ∧ L.offset = 0)) := by
  refine ⟨by unfold lineAt; split_ifs <;> simp [*], fun L hL => ?_⟩
  unfold lineAt at hL
  split_ifs at hL with hpos
  obtain rfl := Option.some.inj hL
  have hflat := flatten_lines content.toList
  have hsize := byteLength_toList content
  rcases hls : lines content.toList with _ | ⟨l, ls⟩
  · -- an empty text has no lines
    have hc : content = "" := by
      rw [← String.toList_inj, ← hflat, hls]
      rfl
    subst hc
    have hp : pos = 0 := by simpa using hpos
    subst hp
    rw [show findLine 0 1 0 [] = ⟨1, "", 0⟩ from rfl]
    exact ⟨[], [], by simp, by simp, rfl, .inr ⟨by simp, rfl⟩, rfl, by simp,
      fun _ => .inr ⟨rfl, rfl, rfl, rfl⟩⟩
  · rw [hls] at hflat
    obtain ⟨pre, t, post, hsplit, hn, ht, ho, hin⟩ :=
      findLine_places pos 1 0 (l :: ls) (by simp) (Nat.zero_le _)
        (by rw [hflat, hsize]; omega)
    have hcut := lines_cut content.toList
    rw [hls, hsplit] at hcut
    obtain ⟨hpre, hlast, hne⟩ := hcut.split
    rw [ht, String.toList_ofList]
    have hcs : content.toList = pre.flatten ++ t ++ post.flatten := by
      rw [← hflat, hsplit]
      simp
    have hlen : content.utf8ByteSize =
        byteLength pre.flatten + byteLength t + byteLength post.flatten := by
      rw [← hsize, hcs, byteLength_append, byteLength_append]
    refine ⟨pre, post.flatten, hcs, hpre, by omega, ?_, by omega, ?_, ?_⟩
    · rcases hlast with hl | ⟨hn', rfl⟩
      · exact .inl hl
      · exact .inr ⟨hn', rfl⟩
    · intro hlt
      rcases hin with hin | ⟨rfl, heq⟩
      · exact hin
      · simp at hlen
        omega
    · intro heq
      rcases hin with hin | ⟨rfl, hend⟩
      · omega
      · exact .inl ⟨rfl, by simpa [← String.toList_inj] using hne, hend⟩

/-- At the end of a text that ends with a line break, the position is the end of the last
line, not the start of a line after it. -/
example : (lineAt "ab\ncd\n" 6).map (fun L => (L.number, L.text, L.offset)) =
    some (2, "cd\n", 3) := by decide +kernel

end Text
end Verve
