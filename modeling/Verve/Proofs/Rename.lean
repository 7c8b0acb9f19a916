import Verve.Ty.Basic
import Mathlib.Data.List.Basic

/-!
# Renaming the generics of types

A fresh copy of a generic is its name, `#` and the count of fresh generics made so far:
`T#3`. Two runs of checking that start from counters `c` and `c + d` make the same copies
with numbers `d` apart. `Placeholder.renumber c d` says how one run's names become the
other's: every part of a name after a `#` that is the numeral of a number above `c` is
moved up by `d`.

* `Placeholder.renumber_injective`: no two names are renumbered alike, so asking whether two
  names agree gets the same answer after renumbering;
* `Placeholder.renumber_fresh`: the copy a run makes at its counter `k` becomes the copy the
  other run makes at `k + d`;
* `Placeholder.renumber_of_below`: a name whose numbered parts are at most `c`, and so every
  name without `#`, is left as it is;
* `Placeholder.declaredName_renumber`: a name is written as it was.

`Ty.rename ρ` applies a renaming of names to every name in a type that stands for a generic:
generics, the generics a function, constructor or enum declares, and the parameter of an
interface. For an injective `ρ` the comparisons of types, their dispatch keys and their
signatures are the same before and after (`Ty.same_rename`, `Ty.dispatchKey_rename`,
`Ty.sig?_rename`), and so is the way they are written when `ρ` keeps declared names
(`Ty.display_rename`).
-/

namespace Verve

namespace Placeholder

/-- The parts of a name between its `#`s. -/
def parts (x : String) : List (List Char) := x.toList.splitOn '#'

/-- A part of a name, renumbered: the numeral of a number above `start` becomes that of the
number `offset` higher; any other part stays. -/
def renumberPart (start offset : Nat) (s : List Char) : List Char :=
  if s = Nat.toDigits 10 (Nat.ofDigitChars 10 s 0) ∧ start < Nat.ofDigitChars 10 s 0 then
    Nat.toDigits 10 (Nat.ofDigitChars 10 s 0 + offset)
  else s

/-- The parts of a name, all but the first renumbered. -/
def renumberParts (start offset : Nat) : List (List Char) → List (List Char)
  | [] => []
  | first :: rest => first :: rest.map (renumberPart start offset)

/-- A name with every part after the first renumbered. -/
def renumber (start offset : Nat) (x : String) : String :=
  String.ofList (['#'].intercalate (renumberParts start offset (parts x)))

/-- Every numbered part of the name, after the first, is at most `c`: the name is no copy made
after the counter stood at `c`. -/
def Below (c : Nat) (x : String) : Prop :=
  ∀ s ∈ (parts x).tail, s = Nat.toDigits 10 (Nat.ofDigitChars 10 s 0) → Nat.ofDigitChars 10 s 0 ≤ c

instance (c : Nat) (x : String) : Decidable (Below c x) := by
  unfold Below
  infer_instance

theorem not_mem_of_mem_splitOn {a : Char} :
    ∀ {xs : List Char} {l : List Char}, l ∈ xs.splitOn a → a ∉ l
  | [], l, h => by simp_all [List.splitOn_nil]
  | x :: xs, l, h => by
    rw [List.splitOn_cons_eq_if_modifyHead] at h
    split at h
    · rcases List.mem_cons.1 h with rfl | h
      · simp
      · exact not_mem_of_mem_splitOn h
    · rename_i hx
      -- the first part gains `x`, which is no separator; the others are those of `xs`
      obtain ⟨hd, tl, htl⟩ := List.exists_cons_of_ne_nil (List.splitOn_ne_nil a xs)
      rw [htl, List.modifyHead_cons] at h
      rcases List.mem_cons.1 h with rfl | h
      · have := not_mem_of_mem_splitOn (htl ▸ List.mem_cons_self : hd ∈ xs.splitOn a)
        simp only [List.mem_cons, not_or]
        exact ⟨fun h => hx (by simp [h]), this⟩
      · exact not_mem_of_mem_splitOn (htl ▸ List.mem_cons_of_mem _ h)

theorem parts_ne_nil (x : String) : parts x ≠ [] := List.splitOn_ne_nil _ _

theorem not_mem_of_mem_parts {x : String} {s : List Char} (h : s ∈ parts x) : '#' ∉ s :=
  not_mem_of_mem_splitOn h

theorem not_mem_toDigits (k : Nat) : '#' ∉ Nat.toDigits 10 k := fun h => by
  have := Nat.isDigit_of_mem_toDigits (by decide) (by decide) h
  simp [Char.isDigit] at this

theorem not_mem_renumberPart {start offset : Nat} {s : List Char} (h : '#' ∉ s) :
    '#' ∉ renumberPart start offset s := by
  unfold renumberPart
  split
  · exact not_mem_toDigits _
  · exact h

theorem renumberPart_of_numeral {start offset k : Nat} (hk : start < k) :
    renumberPart start offset (Nat.toDigits 10 k) = Nat.toDigits 10 (k + offset) := by
  unfold renumberPart
  rw [Nat.ofDigitChars_ten_toDigits, if_pos ⟨rfl, hk⟩]

/-- Renumbering keeps parts apart: a numeral moved up is the numeral of a number above `start`
too, so it is no part that stayed. -/
theorem renumberPart_injective (start offset : Nat) :
    Function.Injective (renumberPart start offset) := by
  intro s t h
  -- a part that moved is the numeral of its number
  have hmoved : ∀ {u v : List Char}, u = Nat.toDigits 10 (Nat.ofDigitChars 10 u 0) ∧
      start < Nat.ofDigitChars 10 u 0 → renumberPart start offset u = v →
      v = Nat.toDigits 10 (Nat.ofDigitChars 10 v 0) ∧ start < Nat.ofDigitChars 10 v 0 ∧
        Nat.ofDigitChars 10 v 0 = Nat.ofDigitChars 10 u 0 + offset := by
    intro u v hu huv
    unfold renumberPart at huv
    rw [if_pos hu] at huv
    subst huv
    rw [Nat.ofDigitChars_ten_toDigits]
    exact ⟨rfl, by omega, rfl⟩
  by_cases hs : s = Nat.toDigits 10 (Nat.ofDigitChars 10 s 0) ∧ start < Nat.ofDigitChars 10 s 0
  · by_cases ht : t = Nat.toDigits 10 (Nat.ofDigitChars 10 t 0) ∧ start < Nat.ofDigitChars 10 t 0
    · obtain ⟨-, -, hv⟩ := hmoved hs h
      obtain ⟨-, -, hv'⟩ := hmoved ht rfl
      have hk : Nat.ofDigitChars 10 s 0 = Nat.ofDigitChars 10 t 0 := by omega
      calc s = Nat.toDigits 10 (Nat.ofDigitChars 10 s 0) := hs.1
        _ = Nat.toDigits 10 (Nat.ofDigitChars 10 t 0) := by rw [hk]
        _ = t := ht.1.symm
    · -- `t` stayed, yet is the numeral of a number above `start`
      have ht' : renumberPart start offset t = t := by unfold renumberPart; rw [if_neg ht]
      obtain ⟨hnum, hlt, -⟩ := hmoved hs (h.trans ht')
      exact absurd ⟨hnum, hlt⟩ ht
  · have hs' : renumberPart start offset s = s := by unfold renumberPart; rw [if_neg hs]
    by_cases ht : t = Nat.toDigits 10 (Nat.ofDigitChars 10 t 0) ∧ start < Nat.ofDigitChars 10 t 0
    · obtain ⟨hnum, hlt, -⟩ := hmoved ht (h.symm.trans hs')
      exact absurd ⟨hnum, hlt⟩ hs
    · have ht' : renumberPart start offset t = t := by unfold renumberPart; rw [if_neg ht]
      rw [← hs', h, ht']

theorem renumberParts_injective (start offset : Nat) :
    Function.Injective (renumberParts start offset) := by
  intro ps qs h
  cases ps <;> cases qs <;> simp only [renumberParts, reduceCtorEq, List.cons.injEq] at h
  · rfl
  · rw [h.1, (List.map_injective_iff.2 (renumberPart_injective start offset)) h.2]

theorem renumberParts_ne_nil {start offset : Nat} {ps : List (List Char)} (h : ps ≠ []) :
    renumberParts start offset ps ≠ [] := by
  cases ps
  · exact absurd rfl h
  · simp [renumberParts]

/-- The parts of a renumbered name are the renumbered parts. -/
theorem parts_renumber (start offset : Nat) (x : String) :
    parts (renumber start offset x) = renumberParts start offset (parts x) := by
  unfold renumber
  simp only [parts, String.toList_ofList]
  refine List.splitOn_intercalate _ ?_ (renumberParts_ne_nil (parts_ne_nil x))
  intro l hl
  cases hp : parts x with
  | nil => exact absurd hp (parts_ne_nil x)
  | cons first rest =>
    rw [parts] at hp
    rw [hp, renumberParts] at hl
    rcases List.mem_cons.1 hl with rfl | hl
    · exact not_mem_of_mem_splitOn (hp ▸ List.mem_cons_self)
    · obtain ⟨s, hs, rfl⟩ := List.mem_map.1 hl
      exact not_mem_renumberPart (not_mem_of_mem_splitOn (hp ▸ List.mem_cons_of_mem _ hs))

theorem eq_of_parts {x y : String} (h : parts x = parts y) : x = y := by
  have := congrArg (['#'].intercalate ·) h
  simp only [parts, List.intercalate_splitOn] at this
  exact String.toList_injective this

/-- **No two names are renumbered alike.** -/
theorem renumber_injective (start offset : Nat) : Function.Injective (renumber start offset) := by
  intro x y h
  have hp := congrArg parts h
  rw [parts_renumber, parts_renumber] at hp
  exact eq_of_parts (renumberParts_injective start offset hp)

/-- A name whose parts all stay is left as it is. -/
theorem renumber_of_parts {start offset : Nat} {x : String}
    (h : ∀ s ∈ (parts x).tail, renumberPart start offset s = s) : renumber start offset x = x := by
  apply eq_of_parts
  rw [parts_renumber]
  cases hp : parts x with
  | nil => exact absurd hp (parts_ne_nil x)
  | cons first rest =>
    rw [hp, List.tail_cons] at h
    simp only [renumberParts, List.cons.injEq, true_and]
    exact (List.map_congr_left h).trans (List.map_id _)

/-- A name whose numbered parts are at most `start` is left as it is. -/
theorem renumber_of_below {start : Nat} (offset : Nat) {x : String} (h : Below start x) :
    renumber start offset x = x := by
  refine renumber_of_parts fun s hs => ?_
  unfold renumberPart
  rw [if_neg]
  rintro ⟨hnum, hlt⟩
  exact absurd (h s hs hnum) (by omega)

/-- A name without `#` has one part and nothing to renumber. -/
theorem below_of_not_mem {c : Nat} {x : String} (h : '#' ∉ x.toList) : Below c x := by
  intro s hs
  simp [parts, List.splitOn_eq_singleton h] at hs

/-- Moving up by nothing leaves every name as it is. -/
theorem renumber_zero (start : Nat) (x : String) : renumber start 0 x = x := by
  refine renumber_of_parts fun s _ => ?_
  unfold renumberPart
  split
  · rename_i h
    rw [Nat.add_zero, ← h.1]
  · rfl

theorem parts_fresh (g : String) (k : Nat) :
    parts (g ++ "#" ++ Nat.repr k) = parts g ++ [Nat.toDigits 10 k] := by
  simp only [parts, String.toList_append, Nat.toList_repr, List.append_assoc]
  rw [show ("#".toList ++ Nat.toDigits 10 k) = '#' :: Nat.toDigits 10 k from rfl,
    List.splitOn_append_cons_self, List.splitOn_eq_singleton (not_mem_toDigits k)]

/-- **A fresh copy is renumbered to the copy made `offset` later.** -/
theorem renumber_fresh {start : Nat} (offset : Nat) (g : String) {k : Nat} (hk : start < k) :
    renumber start offset (g ++ "#" ++ Nat.repr k) =
      renumber start offset g ++ "#" ++ Nat.repr (k + offset) := by
  apply eq_of_parts
  rw [parts_renumber, parts_fresh, parts_fresh, parts_renumber]
  obtain ⟨first, rest, hp⟩ := List.exists_cons_of_ne_nil (parts_ne_nil g)
  simp [hp, renumberParts, renumberPart_of_numeral hk]

theorem takeWhile_intercalate {first : List Char} (h : '#' ∉ first) (rest : List (List Char)) :
    (['#'].intercalate (first :: rest)).takeWhile (· != '#') = first := by
  have hpos : ∀ c ∈ first, (c != '#') = true := fun c hc => by
    have hc' : c ≠ '#' := fun hceq => h (hceq ▸ hc)
    simpa using hc'
  cases rest with
  | nil => simpa using @List.takeWhile_append_of_pos _ _ first [] hpos
  | cons r rest =>
    rw [List.intercalate_cons_of_ne_nil (by simp), List.append_assoc,
      List.takeWhile_append_of_pos hpos]
    simp

/-- **Renumbering keeps how a name is written.** The declared name of a copy is the part before
its first `#`, which renumbering never changes. -/
theorem declaredName_renumber (start offset : Nat) (x : String) :
    Ty.declaredName (renumber start offset x) = Ty.declaredName x := by
  unfold Ty.declaredName
  refine congrArg String.ofList ?_
  obtain ⟨first, rest, hp⟩ := List.exists_cons_of_ne_nil (parts_ne_nil x)
  have hfirst : '#' ∉ first := not_mem_of_mem_parts (hp ▸ List.mem_cons_self)
  have hx : x.toList = ['#'].intercalate (first :: rest) := by
    rw [← hp, parts, List.intercalate_splitOn]
  unfold renumber
  rw [hp, renumberParts, String.toList_ofList, takeWhile_intercalate hfirst, hx,
    takeWhile_intercalate hfirst]

end Placeholder

namespace IfaceRef

/-- The reference with its parameter renamed. -/
def rename (ρ : String → String) (r : IfaceRef) : IfaceRef := { r with generic := ρ r.generic }

@[simp] theorem id_rename (ρ : String → String) (r : IfaceRef) : (r.rename ρ).id = r.id := rfl

@[simp] theorem name_rename (ρ : String → String) (r : IfaceRef) : (r.rename ρ).name = r.name := rfl

@[simp] theorem generic_rename (ρ : String → String) (r : IfaceRef) :
    (r.rename ρ).generic = ρ r.generic := rfl

end IfaceRef

namespace EnumRef

/-- The reference with its generics renamed. -/
def rename (ρ : String → String) (r : EnumRef) : EnumRef := { r with generics := r.generics.map ρ }

@[simp] theorem id_rename (ρ : String → String) (r : EnumRef) : (r.rename ρ).id = r.id := rfl

@[simp] theorem name_rename (ρ : String → String) (r : EnumRef) : (r.rename ρ).name = r.name := rfl

end EnumRef

namespace Ty

mutual

/-- Renames every name that stands for a generic: generics, declared generics and interface
parameters. -/
def rename (ρ : String → String) : Ty → Ty
  | .basic n => .basic n
  | .generic n => .generic (ρ n)
  | .app h as => .app (rename ρ h) (renameList ρ as)
  | .fn n ps r gs o => .fn n (renameList ρ ps) (rename ρ r) (gs.map ρ) (o.map (IfaceRef.rename ρ))
  | .iface r => .iface (r.rename ρ)
  | .enum r => .enum (r.rename ρ)
  | .data r => .data r
  | .ctor i n ps r gs => .ctor i n (renameList ρ ps) (rename ρ r) (gs.map ρ)

/-- `rename` on every member of a list. -/
def renameList (ρ : String → String) : List Ty → List Ty
  | [] => []
  | t :: ts => rename ρ t :: renameList ρ ts

end

variable {ρ : String → String}

@[simp] theorem renameList_eq_map (ts : List Ty) : renameList ρ ts = ts.map (rename ρ) := by
  induction ts with
  | nil => rfl
  | cons t ts ih => simp [renameList, ih]

end Ty

namespace Sig

/-- The signature with its generics renamed. -/
def rename (ρ : String → String) (s : Sig) : Sig :=
  ⟨s.name, s.params.map (Ty.rename ρ), Ty.rename ρ s.ret, s.generics.map ρ,
    s.owner.map (IfaceRef.rename ρ)⟩

end Sig

namespace Ty

variable {ρ : String → String}

mutual

/-- Renaming by the identity changes nothing. -/
theorem rename_id : (t : Ty) → rename id t = t
  | .basic _ | .generic _ | .iface _ | .data _ => rfl
  | .enum r => by simp [rename, EnumRef.rename]
  | .app h as => by rw [rename, rename_id h, renameList_id as]
  | .fn n ps r gs o => by
    rw [rename, renameList_id ps, rename_id r]
    cases o <;> simp [IfaceRef.rename]
  | .ctor i n ps r gs => by rw [rename, renameList_id ps, rename_id r, List.map_id]

theorem renameList_id : (ts : List Ty) → renameList id ts = ts
  | [] => rfl
  | t :: ts => by rw [renameList, rename_id t, renameList_id ts]

end

theorem isGeneric_rename (t : Ty) : (rename ρ t).isGeneric = t.isGeneric := by
  cases t <;> rfl

theorem dispatchKey_rename : (t : Ty) → (rename ρ t).dispatchKey = t.dispatchKey
  | .app h _ => by rw [rename, dispatchKey, dispatchKey, dispatchKey_rename h]
  | .basic _ | .generic _ | .fn .. | .iface _ | .enum _ | .data _ | .ctor .. => rfl

theorem sameDecl_rename (a b : Ty) : (rename ρ a).sameDecl (rename ρ b) = a.sameDecl b := by
  cases a <;> cases b <;> rfl

theorem isGenericNamed_rename (hρ : Function.Injective ρ) (x : String) (t : Ty) :
    (rename ρ t).isGenericNamed (ρ x) = t.isGenericNamed x := by
  cases t <;> simp [rename, isGenericNamed, hρ.eq_iff]

mutual

/-- **Renaming keeps sameness.** Generics are the same when their names are, and an injective
renaming keeps names apart. -/
theorem same_rename (hρ : Function.Injective ρ) : (a b : Ty) → (rename ρ a).same (rename ρ b) = a.same b
  | .generic x, b => by cases b <;> simp [rename, same, hρ.eq_iff]
  | .app h as, b => by
    cases b with
    | app h' bs => rw [rename, rename, same, same, same_rename hρ h h', sameList_rename hρ as bs]
    | _ => rfl
  | .fn n ps r _ _, b => by
    cases b with
    | fn n' ps' r' _ _ =>
      rw [rename, rename, same, same, sameList_rename hρ ps ps', same_rename hρ r r']
    | _ => rfl
  | .basic _, b | .iface _, b | .enum _, b | .data _, b | .ctor .., b => by cases b <;> rfl

theorem sameList_rename (hρ : Function.Injective ρ) : (as bs : List Ty) →
    sameList (renameList ρ as) (renameList ρ bs) = sameList as bs
  | [], bs => by cases bs <;> rfl
  | a :: as, bs => by
    cases bs with
    | nil => rfl
    | cons b bs =>
      rw [renameList, renameList, sameList, sameList, same_rename hρ a b, sameList_rename hρ as bs]

end

theorem sig?_rename (t : Ty) : (rename ρ t).sig? = t.sig?.map (Sig.rename ρ) := by
  cases t <;> simp [rename, sig?, Sig.rename]

theorem ctorSig?_rename (t : Ty) : (rename ρ t).ctorSig? = t.ctorSig?.map (Sig.rename ρ) := by
  cases t <;> simp [rename, ctorSig?, Sig.rename]

mutual

/-- **Renaming keeps how a type is written**, when it keeps how each name is written. -/
theorem spellOnto_rename (hρ : ∀ x, declaredName (ρ x) = declaredName x) :
    (t : Ty) → (acc : String) → spellOnto .display (rename ρ t) acc = spellOnto .display t acc
  | .generic x, acc => by simp [rename, spellOnto, Spelling.display, hρ]
  | .app h as, acc => by
    rw [rename, spellOnto, spellOnto, spellOnto_rename hρ h, spellListOnto_rename hρ as]
  | .fn n ps r gs o, acc => by
    rw [rename, spellOnto, spellOnto, spellListOnto_rename hρ ps, spellOnto_rename hρ r]
  | .basic _, _ | .iface _, _ | .enum _, _ | .data _, _ | .ctor .., _ => rfl

theorem spellListOnto_rename (hρ : ∀ x, declaredName (ρ x) = declaredName x) :
    (ts : List Ty) → (acc : String) →
      spellListOnto .display (renameList ρ ts) acc = spellListOnto .display ts acc
  | [], _ => rfl
  | [t], acc => by rw [renameList, renameList, spellListOnto, spellListOnto, spellOnto_rename hρ t]
  | t :: u :: ts, acc => by
    rw [renameList, renameList, spellListOnto, spellListOnto, spellOnto_rename hρ t,
      ← renameList, spellListOnto_rename hρ (u :: ts)]

end

theorem display_rename (hρ : ∀ x, declaredName (ρ x) = declaredName x) (t : Ty) :
    (rename ρ t).display = t.display :=
  spellOnto_rename hρ t ""

mutual

/-- The names in a type that stand for generics: those that `rename` renames. -/
def genericNames : Ty → List String
  | .basic _ => []
  | .generic n => [n]
  | .app h as => genericNames h ++ genericNamesList as
  | .fn _ ps r gs o => genericNamesList ps ++ genericNames r ++ gs ++ o.toList.map (·.generic)
  | .iface r => [r.generic]
  | .enum r => r.generics
  | .data _ => []
  | .ctor _ _ ps r gs => genericNamesList ps ++ genericNames r ++ gs

/-- `genericNames` of every member of a list, one after another. -/
def genericNamesList : List Ty → List String
  | [] => []
  | t :: ts => genericNames t ++ genericNamesList ts

end

mutual

/-- A type whose names for generics the renaming keeps is kept. -/
theorem rename_eq_self : (t : Ty) → (∀ x ∈ t.genericNames, ρ x = x) → rename ρ t = t
  | .basic _, _ | .data _, _ => rfl
  | .generic n, h => by simp [rename, h n (by simp [genericNames])]
  | .app hd as, h => by
    simp only [genericNames, List.mem_append] at h
    rw [rename, rename_eq_self hd fun x hx => h x (.inl hx),
      renameList_eq_self as fun x hx => h x (.inr hx)]
  | .fn n ps r gs o, h => by
    simp only [genericNames, List.mem_append] at h
    rw [rename, renameList_eq_self ps fun x hx => h x (.inl (.inl (.inl hx))),
      rename_eq_self r fun x hx => h x (.inl (.inl (.inr hx))),
      List.map_congr_left fun x hx => h x (.inl (.inr hx)), List.map_id']
    cases o with
    | none => rfl
    | some r' => simp [IfaceRef.rename, h r'.generic (.inr (by simp))]
  | .iface r, h => by simp [rename, IfaceRef.rename, h r.generic (by simp [genericNames])]
  | .enum r, h => by
    simp only [rename, EnumRef.rename]
    rw [List.map_congr_left fun x hx => h x (by simpa [genericNames] using hx), List.map_id']
  | .ctor i n ps r gs, h => by
    simp only [genericNames, List.mem_append] at h
    rw [rename, renameList_eq_self ps fun x hx => h x (.inl (.inl hx)),
      rename_eq_self r fun x hx => h x (.inl (.inr hx)),
      List.map_congr_left fun x hx => h x (.inr hx), List.map_id']

theorem renameList_eq_self : (ts : List Ty) → (∀ x ∈ genericNamesList ts, ρ x = x) →
    renameList ρ ts = ts
  | [], _ => rfl
  | t :: ts, h => by
    simp only [genericNamesList, List.mem_append] at h
    rw [renameList, rename_eq_self t fun x hx => h x (.inl hx),
      renameList_eq_self ts fun x hx => h x (.inr hx)]

end

mutual

/-- Two renamings that agree on the names a type uses for generics rename it alike. -/
theorem rename_congr {ρ' : String → String} :
    (t : Ty) → (∀ x ∈ t.genericNames, ρ x = ρ' x) → rename ρ t = rename ρ' t
  | .basic _, _ | .data _, _ => rfl
  | .generic n, h => by simp [rename, h n (by simp [genericNames])]
  | .app hd as, h => by
    simp only [genericNames, List.mem_append] at h
    rw [rename, rename, rename_congr hd fun x hx => h x (.inl hx),
      renameList_congr as fun x hx => h x (.inr hx)]
  | .fn n ps r gs o, h => by
    simp only [genericNames, List.mem_append] at h
    rw [rename, rename, renameList_congr ps fun x hx => h x (.inl (.inl (.inl hx))),
      rename_congr r fun x hx => h x (.inl (.inl (.inr hx))),
      List.map_congr_left fun x hx => h x (.inl (.inr hx))]
    cases o with
    | none => rfl
    | some r' => simp [IfaceRef.rename, h r'.generic (.inr (by simp))]
  | .iface r, h => by simp [rename, IfaceRef.rename, h r.generic (by simp [genericNames])]
  | .enum r, h => by
    simp only [rename, EnumRef.rename]
    rw [List.map_congr_left fun x hx => h x (by simpa [genericNames] using hx)]
  | .ctor i n ps r gs, h => by
    simp only [genericNames, List.mem_append] at h
    rw [rename, rename, renameList_congr ps fun x hx => h x (.inl (.inl hx)),
      rename_congr r fun x hx => h x (.inl (.inr hx)),
      List.map_congr_left fun x hx => h x (.inr hx)]

theorem renameList_congr {ρ' : String → String} :
    (ts : List Ty) → (∀ x ∈ genericNamesList ts, ρ x = ρ' x) → renameList ρ ts = renameList ρ' ts
  | [], _ => rfl
  | t :: ts, h => by
    simp only [genericNamesList, List.mem_append] at h
    rw [renameList, renameList, rename_congr t fun x hx => h x (.inl hx),
      renameList_congr ts fun x hx => h x (.inr hx)]

end

/-- A name without `#`: no copy of a generic, and nothing that renumbering moves. -/
def PlainName (n : String) : Prop := '#' ∉ n.toList

instance (n : String) : Decidable (PlainName n) := inferInstanceAs (Decidable (_ ∉ _))

mutual

/-- Every basic type, enum and function named in the type has a name without `#`: those
names make the symbols that calls dispatch to. -/
def Plain : Ty → Prop
  | .basic n => PlainName n
  | .generic _ => True
  | .app h as => Plain h ∧ PlainList as
  | .fn n ps r _ _ => PlainName n ∧ PlainList ps ∧ Plain r
  | .iface _ => True
  | .enum r => PlainName r.name
  | .data r => PlainName r.name
  | .ctor _ _ ps r _ => PlainList ps ∧ Plain r

/-- `Plain` for every member of a list. -/
def PlainList : List Ty → Prop
  | [] => True
  | t :: ts => Plain t ∧ PlainList ts

end

theorem plainList_iff : (ts : List Ty) → PlainList ts ↔ ∀ t ∈ ts, Plain t
  | [] => by simp [PlainList]
  | t :: ts => by simp [PlainList, plainList_iff ts]

/-- The dispatch key of a plain type is a plain name. -/
theorem plainName_of_dispatchKey : {t : Ty} → Plain t → {k : String} → t.dispatchKey = some k →
    PlainName k
  | .basic n, h, k, hk => by
    simp only [dispatchKey, Option.some.injEq] at hk
    exact hk ▸ h
  | .enum r, h, k, hk | .data r, h, k, hk => by
    simp only [dispatchKey, Option.some.injEq] at hk
    exact hk ▸ h
  | .app hd _, h, k, hk => plainName_of_dispatchKey h.1 hk
  | .generic _, _, _, hk | .fn .., _, _, hk | .iface _, _, _, hk | .ctor .., _, _, hk => by
    simp [dispatchKey] at hk

theorem plain_rename (t : Ty) : Plain (rename ρ t) ↔ Plain t := by
  cases t with
  | app h as =>
    simp only [rename, Plain, plain_rename h, renameList_eq_map, plainList_iff, List.mem_map,
      forall_exists_index, and_imp, forall_apply_eq_imp_iff₂]
    exact and_congr_right fun _ => forall₂_congr fun t _ => plain_rename t
  | fn n ps r _ _ =>
    simp only [rename, Plain, plain_rename r, renameList_eq_map, plainList_iff, List.mem_map,
      forall_exists_index, and_imp, forall_apply_eq_imp_iff₂]
    exact and_congr_right fun _ => and_congr_left fun _ => forall₂_congr fun t _ => plain_rename t
  | ctor _ _ ps r _ =>
    simp only [rename, Plain, plain_rename r, renameList_eq_map, plainList_iff, List.mem_map,
      forall_exists_index, and_imp, forall_apply_eq_imp_iff₂]
    exact and_congr_left fun _ => forall₂_congr fun t _ => plain_rename t
  | basic _ | generic _ | iface _ | enum _ | data _ => exact Iff.rfl

end Ty

end Verve
