import Mathlib.Control.Lawful
import Mathlib.Data.List.TakeWhile

/-!
# Cutting a text at a separator

`pieces sep s` are the pieces of `s` between occurrences of `sep`, where an empty last piece is
no piece.  A loop over `getline` (`getlineLoop`) and a loop over `find` with a final check for a
rest (`findLoop`) both compute it.  It undoes the two ways of writing a list of texts: every text
followed by the separator, and the separator between the texts.
-/

universe u v

namespace Fussion

variable {A : Type*} [DecidableEq A]

/-- The pieces between separators; an empty last one does not count. -/
def pieces (sep : A) (s : List A) : List (List A) :=
  let parts := s.splitOn sep
  if parts.getLast? = some [] then parts.dropLast else parts

@[simp] theorem pieces_nil (sep : A) : pieces sep [] = [] := rfl

theorem pieces_of_not_mem {sep : A} {s : List A} (h : sep ∉ s) (hne : s ≠ []) :
    pieces sep s = [s] := by
  rw [pieces, List.splitOn_eq_singleton h, if_neg]
  simpa using hne

theorem pieces_append_cons {sep : A} {l : List A} (h : sep ∉ l) (s : List A) :
    pieces sep (l ++ sep :: s) = l :: pieces sep s := by
  have hne : s.splitOn sep ≠ [] := List.splitOn_ne_nil sep s
  rw [pieces, pieces, List.splitOn_append_cons_self_of_not_mem h, List.getLast?_cons_of_ne_nil hne,
    List.dropLast_cons_of_ne_nil hne]
  split_ifs <;> rfl

/-- Texts that are each followed by the separator. -/
theorem pieces_flatMap {sep : A} {ls : List (List A)} (h : ∀ l ∈ ls, sep ∉ l) :
    pieces sep (ls.flatMap (· ++ [sep])) = ls := by
  induction ls with
  | nil => rfl
  | cons l ls ih =>
      rw [List.flatMap_cons, List.append_assoc, List.singleton_append,
        pieces_append_cons (h l List.mem_cons_self),
        ih fun l' hl' ↦ h l' (List.mem_cons_of_mem l hl')]

/-- Texts with the separator between them. -/
theorem pieces_intercalate {sep : A} {ls : List (List A)} (h : ∀ l ∈ ls, sep ∉ l)
    (hne : ∀ l ∈ ls, l ≠ []) : pieces sep ([sep].intercalate ls) = ls := by
  by_cases hnil : ls = []
  · subst hnil
    rfl
  · have hlast : ls.getLast? ≠ some [] := fun hl ↦ hne [] (List.mem_of_getLast? hl) rfl
    rw [pieces, List.splitOn_intercalate sep h hnil, if_neg hlast]

/-! ## One piece at a time -/

/-- `getline(ss, item, sep)`: the item and the rest of the stream; it fails when nothing is left. -/
def getline (sep : A) (s : List A) : Option (List A × List A) :=
  if s = [] then none else some (s.takeWhile (· ≠ sep), (s.dropWhile (· ≠ sep)).tail)

theorem length_lt_of_getline {sep : A} {s item rest : List A}
    (h : getline sep s = some (item, rest)) : rest.length < s.length := by
  rw [getline] at h
  split_ifs at h with hs
  cases h
  have := (List.dropWhile_sublist (l := s) (· ≠ sep)).length_le
  have := List.length_pos_iff.mpr hs
  rw [List.length_tail]
  omega

/-- The first piece is what `getline` reads. -/
theorem pieces_of_getline {sep : A} {s item rest : List A}
    (h : getline sep s = some (item, rest)) : pieces sep s = item :: pieces sep rest := by
  rw [getline] at h
  split_ifs at h with hs
  cases h
  have hitem : sep ∉ s.takeWhile (· ≠ sep) := fun hmem ↦ by
    simpa using List.mem_takeWhile_imp hmem
  have hsplit : s.takeWhile (· ≠ sep) ++ s.dropWhile (· ≠ sep) = s :=
    List.takeWhile_append_dropWhile
  cases hrest : s.dropWhile (· ≠ sep) with
  | nil =>
      rw [hrest, List.append_nil] at hsplit
      rw [hsplit] at hitem ⊢
      rw [pieces_of_not_mem hitem hs, List.tail_nil, pieces_nil]
  | cons c rest =>
      have hc : c = sep := by
        have := List.head?_dropWhile_not (· ≠ sep) s
        rw [hrest] at this
        simpa using this
      rw [hrest, hc] at hsplit
      calc pieces sep s = pieces sep (s.takeWhile (· ≠ sep) ++ sep :: rest) :=
            congrArg (pieces sep) hsplit.symm
        _ = s.takeWhile (· ≠ sep) :: pieces sep rest := pieces_append_cons hitem rest

/-- What `find` has cut off. -/
theorem eq_append_of_idxOf? {sep : A} {s : List A} {e : ℕ} (h : s.idxOf? sep = some e) :
    s = s.take e ++ sep :: s.drop (e + 1) ∧ sep ∉ s.take e := by
  obtain ⟨he, hsep, hbefore⟩ := List.idxOf?_eq_some_iff.mp h
  constructor
  · calc s = s.take e ++ s.drop e := (List.take_append_drop e s).symm
      _ = s.take e ++ sep :: s.drop (e + 1) := by rw [List.drop_eq_getElem_cons he, hsep]
  · intro hmem
    obtain ⟨j, hj, hget⟩ := List.mem_iff_getElem.mp hmem
    rw [List.length_take] at hj
    rw [List.getElem_take] at hget
    exact hbefore j (by omega) hget

theorem length_drop_lt_of_idxOf? {sep : A} {s : List A} {e : ℕ} (h : s.idxOf? sep = some e) :
    (s.drop (e + 1)).length < s.length := by
  obtain ⟨he, -⟩ := List.idxOf?_eq_some_iff.mp h
  rw [List.length_drop]
  omega

section Loops

variable {B : Type u} {m : Type u → Type v} [Monad m]

/-- `while (getline(ss, item, sep)) v.push_back(f(item))`. -/
def getlineLoop (sep : A) (f : List A → m B) (s : List A) (v : List B) : m (List B) :=
  match _h : getline sep s with
  | none => pure v
  | some (item, rest) => do
    let b ← f item
    getlineLoop sep f rest (v ++ [b])
termination_by s.length
decreasing_by exact length_lt_of_getline _h

/-- `while (end != npos)` with `end = s.find(sep, start)`, over the rest of the text from `start`
on; a nonempty rest behind the last separator is one more item. -/
def findLoop (sep : A) (f : List A → m B) (s : List A) (v : List B) : m (List B) :=
  match _h : s.idxOf? sep with
  | some e => do
    let b ← f (s.take e)
    findLoop sep f (s.drop (e + 1)) (v ++ [b])
  | none =>
    if s = [] then pure v
    else do
      let b ← f s
      pure (v ++ [b])
termination_by s.length
decreasing_by exact length_drop_lt_of_idxOf? _h

variable [LawfulMonad m]

theorem getlineLoop_eq (sep : A) (f : List A → m B) (s : List A) (v : List B) :
    getlineLoop sep f s v = (v ++ ·) <$> (pieces sep s).mapM f := by
  fun_induction getlineLoop sep f s v with
  | case1 s v h =>
      rw [getline] at h
      split_ifs at h with hs
      rw [hs, pieces_nil, List.mapM_nil, map_pure, List.append_nil]
  | case2 s v item rest h ih =>
      rw [pieces_of_getline h, List.mapM_cons, map_bind]
      refine bind_congr fun b ↦ ?_
      rw [ih b]
      simp [List.append_assoc]

theorem findLoop_eq (sep : A) (f : List A → m B) (s : List A) (v : List B) :
    findLoop sep f s v = (v ++ ·) <$> (pieces sep s).mapM f := by
  fun_induction findLoop sep f s v with
  | case1 s v e h ih =>
      obtain ⟨hs, hsep⟩ := eq_append_of_idxOf? h
      have hpieces : pieces sep s = s.take e :: pieces sep (s.drop (e + 1)) :=
        (congrArg (pieces sep) hs).trans (pieces_append_cons hsep _)
      rw [hpieces, List.mapM_cons, map_bind]
      refine bind_congr fun b ↦ ?_
      rw [ih b]
      simp [List.append_assoc]
  | case2 v h =>
      rw [pieces_nil, List.mapM_nil, map_pure, List.append_nil]
  | case3 s v h hs =>
      rw [pieces_of_not_mem (by simpa using h) hs]
      simp

end Loops

end Fussion
