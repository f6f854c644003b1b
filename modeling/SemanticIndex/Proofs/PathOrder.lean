import Mathlib.Data.List.Pairwise
import SemanticIndex.Scan.Discover

/-!
# Files in the Order of Their Paths

A scan takes the files that patterns have listed in the order of their paths, each file once. The
result is strictly ascending (`pairwise_inPathOrder`), misses no file
(`exists_same_mem_inPathOrder`), and does not depend on how the files were listed
(`SameListing.inPathOrder_eq`).
-/

namespace SemanticIndex

namespace SourcePath

/-- `p` comes before `q` and names another file. -/
def Before (p q : SourcePath) : Prop := compare p.components q.components = .lt

instance (p q : SourcePath) : Decidable (p.Before q) := inferInstanceAs (Decidable (_ = _))

variable {p q r : SourcePath}

theorem Before.trans (h : p.Before q) (h' : q.Before r) : p.Before r := Std.TransCmp.lt_trans h h'

/-- Paths in strict order name different files. -/
theorem Before.not_same (h : p.Before q) : p.same q = false := by
  refine Bool.eq_false_iff.mpr fun hsame => ?_
  rw [Before, same_iff.mp hsame, Std.ReflOrd.compare_self] at h
  cases h

theorem le_trans (h : p.le q = true) (h' : q.le r = true) : p.le r = true :=
  Std.TransCmp.isLE_trans h h'

/-- Of two lists of components one is not after the other. -/
private theorem isLE_total (k k' : List PathComponent) :
    ((compare k k').isLE || (compare k' k).isLE) = true := by
  have hswap : compare k' k = (compare k k').swap := Std.OrientedCmp.eq_swap
  rw [hswap]
  cases compare k k' <;> rfl

theorem le_total (p q : SourcePath) : (p.le q || q.le p) = true := by
  rw [le, le]
  exact isLE_total p.components q.components

/-- Strict order is order. -/
theorem le_of_before (h : p.Before q) : p.le q = true :=
  Ordering.isLE_iff_eq_lt_or_eq_eq.mpr (Or.inl h)

/-- Paths in order that name different files are in strict order. -/
theorem before_of_le (h : p.le q = true) (hne : p.same q = false) : p.Before q := by
  rw [le, Ordering.isLE_iff_eq_lt_or_eq_eq] at h
  refine h.resolve_right fun heq => ?_
  rw [same_iff.mpr (Std.LawfulEqCmp.eq_of_compare heq)] at hne
  cases hne

/-- What names one file comes before the same paths. -/
theorem before_of_same_of_before (h : p.same q = true) (h' : q.Before r) : p.Before r := by
  rwa [Before, same_iff.mp h]

section

variable {α : Type} (origin : α → SourcePath) {xs ys : List α}

/-- What is sorted by paths is in their order. -/
theorem pairwise_sort_le (xs : List α) :
    (sort (fun a b => (origin a).le (origin b)) xs).Pairwise
      fun a b => (origin a).le (origin b) = true :=
  pairwise_sort (fun a b => le_total (origin a) (origin b)) (fun _ _ _ => le_trans) xs

/-- Lists of components of which none is after the other are equal. -/
private theorem isLE_antisymm {k k' : List PathComponent} (h : (compare k k').isLE = true)
    (h' : (compare k' k).isLE = true) : k = k' :=
  Std.LawfulEqCmp.eq_of_compare (Std.OrientedCmp.isLE_antisymm h h')

/-- Sorting by paths depends on nothing but what there is of each path, in its order. -/
theorem sort_le_congr (h : ∀ k, xs.filter (fun x => (origin x).components == k) =
      ys.filter fun x => (origin x).components == k) :
    sort (fun a b => (origin a).le (origin b)) xs =
      sort (fun a b => (origin a).le (origin b)) ys :=
  sort_congr (fun x => (origin x).components) (fun k k' => (compare k k').isLE)
    isLE_total (fun _ _ _ => Std.TransCmp.isLE_trans) isLE_antisymm h

/-- Items can be left out before or after sorting by paths. -/
theorem sort_le_filter (p : α → Bool) (xs : List α) :
    sort (fun a b => (origin a).le (origin b)) (xs.filter p) =
      (sort (fun a b => (origin a).le (origin b)) xs).filter p :=
  sort_filter (fun x => (origin x).components) (fun k k' => (compare k k').isLE)
    isLE_total (fun _ _ _ => Std.TransCmp.isLE_trans) isLE_antisymm p xs

end

end SourcePath

open SourcePath

variable {p q : SourcePath} {paths paths' : List SourcePath}

/-! ### Dropping repetitions -/

/-- What is dropped is an item that equals the one before it, which stays. -/
theorem dropRepeated_cons {α : Type} (same : α → α → Bool) (x : α) (xs : List α) :
    ∃ ys, dropRepeated same (x :: xs) = x :: ys ∧
      (ys = dropRepeated same xs ∧ (∀ y ∈ ys.head?, same x y = false) ∨
        ∃ y, dropRepeated same xs = y :: ys ∧ same x y = true) := by
  rw [dropRepeated]
  cases hxs : dropRepeated same xs with
  | nil => exact ⟨[], rfl, Or.inl ⟨rfl, fun _ hy => nomatch hy⟩⟩
  | cons y ys =>
    cases hsame : same x y with
    | true => exact ⟨ys, by simp [hsame], Or.inr ⟨y, rfl, hsame⟩⟩
    | false =>
      refine ⟨y :: ys, by simp [hsame], Or.inl ⟨rfl, fun z hz => ?_⟩⟩
      obtain rfl := Option.some.inj hz
      exact hsame

/-- Nothing is rearranged when repetitions are dropped. -/
theorem dropRepeated_sublist {α : Type} (same : α → α → Bool) (xs : List α) :
    (dropRepeated same xs).Sublist xs := by
  induction xs with
  | nil => exact List.nil_sublist _
  | cons x xs ih =>
    obtain ⟨ys, heq, ⟨rfl, -⟩ | ⟨y, hys, -⟩⟩ := dropRepeated_cons same x xs
    · exact heq ▸ ih.cons_cons x
    · exact heq ▸ ((List.sublist_cons_self y ys).trans (hys ▸ ih)).cons_cons x

/-- Of every file one path stays. -/
theorem exists_same_mem_dropRepeated (hp : p ∈ paths) :
    ∃ q ∈ dropRepeated same paths, q.same p = true := by
  induction paths with
  | nil => cases hp
  | cons r paths ih =>
    obtain ⟨ys, heq, hys⟩ := dropRepeated_cons same r paths
    rw [heq]
    rcases List.mem_cons.mp hp with rfl | hp
    · exact ⟨p, List.mem_cons_self, same_refl p⟩
    · obtain ⟨q, hq, hqp⟩ := ih hp
      rcases hys with ⟨rfl, -⟩ | ⟨y, hy, hry⟩
      · exact ⟨q, List.mem_cons_of_mem r hq, hqp⟩
      · rcases List.mem_cons.mp (hy ▸ hq) with rfl | hq
        -- the path that is dropped names the file of the one before it
        · exact ⟨r, List.mem_cons_self, by rw [same_iff] at *; exact hry.trans hqp⟩
        · exact ⟨q, List.mem_cons_of_mem r hq, hqp⟩

/-- Where paths are in order, those that stay are strictly ascending. -/
theorem pairwise_dropRepeated (h : paths.Pairwise fun p q => p.le q = true) :
    (dropRepeated same paths).Pairwise Before := by
  induction paths with
  | nil => exact .nil
  | cons r paths ih =>
    obtain ⟨hr, hpaths⟩ := List.pairwise_cons.mp h
    have hascending := ih hpaths
    obtain ⟨ys, heq, ⟨rfl, hne⟩ | ⟨y, hy, hry⟩⟩ := dropRepeated_cons same r paths
    · rw [heq]
      refine List.pairwise_cons.mpr ⟨fun q hq => ?_, hascending⟩
      have hsub := dropRepeated_sublist same paths
      cases hlist : dropRepeated same paths with
      | nil => simp [hlist] at hq
      | cons y ys =>
        rw [hlist] at hq hne hascending hsub
        -- the first path is before the one after it, and so before all others
        have hry := before_of_le (hr y (hsub.subset List.mem_cons_self)) (hne y rfl)
        rcases List.mem_cons.mp hq with rfl | hq
        · exact hry
        · exact hry.trans ((List.pairwise_cons.mp hascending).1 q hq)
    · rw [hy] at hascending
      obtain ⟨hbefore, hascending⟩ := List.pairwise_cons.mp hascending
      exact heq ▸ List.pairwise_cons.mpr
        ⟨fun q hq => before_of_same_of_before hry (hbefore q hq), hascending⟩

/-! ### Listings -/

/-- A listing in the order of the paths is in strict order. -/
theorem pairwise_inPathOrder (paths : List SourcePath) : (inPathOrder paths).Pairwise Before :=
  pairwise_dropRepeated (pairwise_sort le_total (fun _ _ _ => le_trans) paths)

/-- A listing in order has no new path. -/
theorem mem_of_mem_inPathOrder (hp : p ∈ inPathOrder paths) : p ∈ paths :=
  mem_sort.mp ((dropRepeated_sublist same _).subset hp)

/-- Each file listed is still there under one of its paths. -/
theorem exists_same_mem_inPathOrder (hp : p ∈ paths) : ∃ q ∈ inPathOrder paths, q.same p = true :=
  exists_same_mem_dropRepeated (mem_sort.mpr hp)

/-- What lies in a directory comes before the file that is called like it. -/
example : (inPathOrder [.ofText "b.pcl", .ofText "b/./x.pcl", .ofText "b//x.pcl"]).map
    SourcePath.text = ["b/./x.pcl", "b.pcl"] := by decide +kernel

/-- What is taken under two paths are two files. -/
theorem eq_of_same_inPathOrder (hp : p ∈ inPathOrder paths) (hq : q ∈ inPathOrder paths)
    (hsame : p.same q = true) : p = q := by
  have hsymm : Std.Symm fun p q : SourcePath => p.same q = false :=
    ⟨fun p q h => by rwa [same, Bool.beq_comm]⟩
  have hpairs : (inPathOrder paths).Pairwise fun p q => p.same q = false :=
    (pairwise_inPathOrder paths).imp Before.not_same
  by_contra hne
  exact Bool.eq_false_iff.mp (hpairs.forall hp hq hne) hsame

/-- The listings list the same files, perhaps in another order and some of them more often, each
under one spelling. -/
structure SameListing (paths paths' : List SourcePath) : Prop where
  mem_iff : ∀ p, p ∈ paths' ↔ p ∈ paths
  spelling_eq : ∀ p ∈ paths, ∀ q ∈ paths, p.same q = true → p = q

/-- Of files with one spelling all that are listed are taken. -/
theorem SameListing.mem_inPathOrder_iff (h : SameListing paths paths') :
    p ∈ inPathOrder paths' ↔ p ∈ paths := by
  constructor
  · exact fun hp => (h.mem_iff p).mp (mem_of_mem_inPathOrder hp)
  · intro hp
    obtain ⟨q, hq, hqp⟩ := exists_same_mem_inPathOrder ((h.mem_iff p).mpr hp)
    rwa [← h.spelling_eq q ((h.mem_iff q).mp (mem_of_mem_inPathOrder hq)) p hp hqp]

/-- How files are listed does not matter. -/
theorem SameListing.inPathOrder_eq (h : SameListing paths paths') :
    inPathOrder paths' = inPathOrder paths := by
  have hself : SameListing paths paths := ⟨fun _ => Iff.rfl, h.spelling_eq⟩
  have hperm : (inPathOrder paths').Perm (inPathOrder paths) := by
    have hnodup : ∀ paths, (inPathOrder paths).Nodup := fun paths =>
      (pairwise_inPathOrder paths).imp fun hbefore heq => by
        rw [heq] at hbefore
        exact absurd (same_refl _) (Bool.eq_false_iff.mp hbefore.not_same)
    exact (List.perm_ext_iff_of_nodup (hnodup _) (hnodup _)).mpr fun p => by
      rw [h.mem_inPathOrder_iff, hself.mem_inPathOrder_iff]
  -- two paths cannot each come before the other
  refine hperm.eq_of_pairwise (fun p q _ _ hpq hqp => ?_) (pairwise_inPathOrder _)
    (pairwise_inPathOrder _)
  exact absurd (same_refl p) (Bool.eq_false_iff.mp (hpq.trans hqp).not_same)

end SemanticIndex
