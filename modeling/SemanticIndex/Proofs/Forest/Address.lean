import Mathlib.Order.Basic
import SemanticIndex.Source.Path

/-!
# Addresses

The address of a node says where it stands, without its number: in which of the trees of the
forest, and by which names it is reached from the root of that tree. Two indexes of the same
contents number their nodes differently but have nodes at the same addresses.

Addresses are ordered twice. `a ≤ b` says that `a` is `b` or lies above it; `compare a b` is the
order of a walk: parents before children, siblings by name, the common namespace before the isolated
files and these by path (`compare_eq_lt_of_lt`, `compare_eq_lt_of_siblings`).
-/

namespace SemanticIndex

/-- Where a node stands in the forest. -/
structure Address where
  /-- The isolated file below whose root the node stands; none in the common namespace. -/
  home : Option (List PathComponent)
  /-- The names on the way up to the root, the node's own first. -/
  trail : List String
  deriving DecidableEq

namespace Address

/-- The address of the root of the common namespace. -/
def origin : Address := ⟨none, []⟩

/-- The address of the root of an isolated file. -/
def isolated (file : List PathComponent) : Address := ⟨some file, []⟩

/-- The address right below `a` with the given name. -/
def child (a : Address) (name : String) : Address := ⟨a.home, name :: a.trail⟩

/-- The address reached from `a` by going down along some names. -/
def down (a : Address) (names : List String) : Address := names.foldl child a

/-- The name of a node that stands at the address; a root has the empty name. -/
def label (a : Address) : String := a.trail.headD ""

@[simp]
theorem home_child (a : Address) (name : String) : (a.child name).home = a.home := rfl

@[simp]
theorem trail_child (a : Address) (name : String) : (a.child name).trail = name :: a.trail := rfl

@[simp]
theorem label_child (a : Address) (name : String) : (a.child name).label = name := rfl

@[simp]
theorem down_nil (a : Address) : a.down [] = a := rfl

@[simp]
theorem down_cons (a : Address) (name : String) (names : List String) :
    a.down (name :: names) = (a.child name).down names := rfl

/-- Going down adds the names to the trail, the last one in front. -/
theorem down_eq (a : Address) (names : List String) :
    a.down names = ⟨a.home, names.reverse ++ a.trail⟩ := by
  induction names generalizing a with
  | nil => rfl
  | cons name names ih => simp [ih]

/-- At the end of a way down stands what is called by the last name of the way. -/
theorem label_down (a : Address) (names : List String) :
    (a.down names).label = names.getLast?.getD a.label := by
  rw [down_eq, label, label, List.getLast?_eq_head?_reverse]
  cases names.reverse <;> rfl

/-- An address determines its parent and its label. -/
@[simp]
theorem child_inj {a b : Address} {x y : String} : a.child x = b.child y ↔ a = b ∧ x = y := by
  simp only [child, mk.injEq, List.cons.injEq]
  constructor
  · rintro ⟨hhome, rfl, htrail⟩
    exact ⟨by cases a; cases b; simp_all, rfl⟩
  · rintro ⟨rfl, rfl⟩
    exact ⟨rfl, rfl, rfl⟩

/-- No address is its own child. -/
theorem ne_child_self (a : Address) (name : String) : a ≠ a.child name := by
  intro h
  simpa using congrArg (·.trail.length) h

/-- What holds at the roots, and right below every address where it holds, holds everywhere. -/
@[elab_as_elim, induction_eliminator]
theorem induction {motive : Address → Prop} (root : ∀ home, motive ⟨home, []⟩)
    (child : ∀ a x, motive a → motive (child a x)) (a : Address) : motive a := by
  obtain ⟨home, trail⟩ := a
  induction trail with
  | nil => exact root home
  | cons x trail ih => exact child ⟨home, trail⟩ x ih

/-- Every address is that of a root or right below another one. -/
theorem eq_root_or_child (a : Address) : a.trail = [] ∨ ∃ p, a = child p a.label := by
  obtain ⟨home, _ | ⟨name, trail⟩⟩ := a
  · exact Or.inl rfl
  · exact Or.inr ⟨⟨home, trail⟩, rfl⟩

/-! ### Ways down -/

/-- The addresses passed on the way down from `a` along some names, `a` itself not included. -/
def steps (a : Address) : List String → List Address
  | [] => []
  | x :: names => a.child x :: steps (a.child x) names

/-- A list of addresses with those of `new` at its end that it does not hold. -/
def touch (as new : List Address) : List Address :=
  new.foldl (fun as a => if a ∈ as then as else as ++ [a]) as

theorem mem_touch_iff {as new : List Address} {a : Address} :
    a ∈ touch as new ↔ a ∈ as ∨ a ∈ new := by
  induction new generalizing as with
  | nil => simp [touch]
  | cons b new ih =>
    -- one address after the other is looked at, against a list that grows
    have hcons : touch as (b :: new) = touch (if b ∈ as then as else as ++ [b]) new := rfl
    rw [hcons, ih, List.mem_cons]
    split
    · rename_i hb
      constructor
      · rintro (h | h)
        · exact Or.inl h
        · exact Or.inr (Or.inr h)
      · rintro (h | rfl | h)
        · exact Or.inl h
        · exact Or.inl hb
        · exact Or.inr h
    · rw [List.mem_append, List.mem_singleton, or_assoc]

/-! ### Above and below -/

/-- `a ≤ b`: `a` is `b` or lies above it. -/
instance : PartialOrder Address where
  le a b := a.home = b.home ∧ a.trail <:+ b.trail
  le_refl a := ⟨rfl, List.suffix_rfl⟩
  le_trans a b c hab hbc := ⟨hab.1.trans hbc.1, hab.2.trans hbc.2⟩
  le_antisymm a b hab hba := by
    obtain ⟨home, trail⟩ := a
    obtain ⟨home', trail'⟩ := b
    obtain rfl : home = home' := hab.1
    rw [mk.injEq]
    exact ⟨rfl, hab.2.eq_of_length (Nat.le_antisymm hab.2.length_le hba.2.length_le)⟩

/-- An address is above another one if that goes on from its trail. -/
theorem le_def {a b : Address} : a ≤ b ↔ a.home = b.home ∧ a.trail <:+ b.trail := Iff.rfl

theorem le_child (a : Address) (name : String) : a ≤ a.child name :=
  ⟨rfl, List.suffix_cons name a.trail⟩

theorem lt_child (a : Address) (name : String) : a < a.child name :=
  lt_of_le_of_ne (le_child a name) (ne_child_self a name)

theorem le_down (a : Address) (names : List String) : a ≤ a.down names := by
  rw [down_eq]
  exact ⟨rfl, List.suffix_append _ _⟩

/-- What lies at or above a child is the child or lies at or above its parent. -/
theorem le_child_iff {a b : Address} {name : String} :
    a ≤ b.child name ↔ a = b.child name ∨ a ≤ b := by
  simp only [le_def, home_child, trail_child, List.suffix_cons_iff]
  constructor
  · rintro ⟨hhome, htrail | htrail⟩
    · exact Or.inl (by cases a; cases b; simp_all [child])
    · exact Or.inr ⟨hhome, htrail⟩
  · rintro (rfl | ⟨hhome, htrail⟩)
    · exact ⟨rfl, Or.inl rfl⟩
    · exact ⟨hhome, Or.inr htrail⟩

/-- Above a child stand its parent and what is above that. -/
theorem lt_child_iff {a b : Address} {name : String} : a < b.child name ↔ a ≤ b := by
  constructor
  · intro h
    exact (le_child_iff.mp h.le).resolve_left h.ne
  · intro h
    exact lt_of_le_of_lt h (lt_child b name)

/-- An address above one that is no longer is that one. -/
theorem eq_of_le_of_length_le {a b : Address} (h : a ≤ b)
    (hlen : b.trail.length ≤ a.trail.length) : a = b := by
  have htrail := h.2.eq_of_length (Nat.le_antisymm h.2.length_le hlen)
  obtain ⟨home, trail⟩ := a
  obtain ⟨home', trail'⟩ := b
  rw [mk.injEq]
  exact ⟨h.1, htrail⟩

/-- Strictly below an address, the way down begins with one of its children. -/
theorem lt_iff_exists_child_le {a b : Address} : a < b ↔ ∃ name, a.child name ≤ b := by
  constructor
  · intro h
    obtain ⟨⟨hhome, before, htrail⟩, -⟩ := And.intro h.le h.ne
    have hne : before ≠ [] := by
      rintro rfl
      exact h.ne (by cases a; cases b; simp_all)
    -- the last name of what comes before is the first one on the way down
    obtain ⟨init, name, rfl⟩ : ∃ init name, before = init ++ [name] :=
      ⟨before.dropLast, before.getLast hne, (List.dropLast_concat_getLast hne).symm⟩
    exact ⟨name, hhome, init, by simpa using htrail⟩
  · rintro ⟨name, h⟩
    exact lt_of_lt_of_le (lt_child a name) h

/-- Two addresses above a third one lie above each other. -/
theorem le_total_of_le {a b c : Address} (ha : a ≤ c) (hb : b ≤ c) : a ≤ b ∨ b ≤ a := by
  rcases Nat.le_total a.trail.length b.trail.length with h | h
  · exact Or.inl ⟨ha.1.trans hb.1.symm, List.suffix_of_suffix_length_le ha.2 hb.2 h⟩
  · exact Or.inr ⟨hb.1.trans ha.1.symm, List.suffix_of_suffix_length_le hb.2 ha.2 h⟩

/-- The way down to an address passes what is strictly below its start and not below its end. -/
theorem mem_steps_iff {a b : Address} {names : List String} :
    b ∈ a.steps names ↔ a < b ∧ b ≤ a.down names := by
  induction names generalizing a with
  | nil =>
    simp only [steps, List.not_mem_nil, down_nil, false_iff, not_and]
    exact fun hlt hle => lt_irrefl _ (lt_of_lt_of_le hlt hle)
  | cons x names ih =>
    rw [steps, List.mem_cons, ih, down_cons]
    constructor
    · rintro (rfl | ⟨hlt, hle⟩)
      · exact ⟨lt_child a x, le_down _ _⟩
      · exact ⟨(lt_child a x).trans hlt, hle⟩
    · rintro ⟨hlt, hle⟩
      have hchild := le_down (a.child x) names
      -- both lie above the end of the way, so one lies above the other
      rcases le_total_of_le hchild hle with h | h
      · rcases h.eq_or_lt with h | h
        · exact Or.inl h.symm
        · exact Or.inr ⟨h, hle⟩
      · rcases le_child_iff.mp h with h | h
        · exact Or.inl h
        · exact absurd h (not_le_of_gt hlt)

/-! ### The order of a walk -/

/-- Addresses are compared by home and then by the names on the way down. -/
instance : Ord Address :=
  ⟨compareLex (compareOn Address.home) (compareOn fun a => a.trail.reverse)⟩

instance : Std.TransOrd Address :=
  inferInstanceAs <| Std.TransCmp <|
    compareLex (compareOn Address.home) (compareOn fun a : Address => a.trail.reverse)

theorem compare_eq (a b : Address) :
    compare a b = (compare a.home b.home).then (compare a.trail.reverse b.trail.reverse) := rfl

/-- No address comes before itself. -/
theorem compare_self_ne_lt (a : Address) : compare a a ≠ .lt := by
  rw [Std.ReflOrd.compare_self]
  decide

/-- Of two addresses not both come before the other. -/
theorem compare_asymm {a b : Address} (h : compare a b = .lt) : compare b a ≠ .lt := by
  rw [Std.OrientedOrd.eq_swap, h]
  decide

private theorem compare_append_left {α : Type} [Ord α] [Std.ReflOrd α] (xs ys zs : List α) :
    compare (xs ++ ys) (xs ++ zs) = compare ys zs := by
  induction xs with
  | nil => rfl
  | cons x xs ih =>
    rw [List.cons_append, List.cons_append, List.compare_cons_cons, Std.ReflOrd.compare_self, ih]
    rfl

/-- Addresses are compared by their homes first. -/
theorem compare_eq_lt_of_home {a b : Address} (h : compare a.home b.home = .lt) :
    compare a b = .lt := by
  rw [compare_eq, h]
  rfl

/-- What lies above comes before. -/
theorem compare_eq_lt_of_lt {a b : Address} (h : a < b) : compare a b = .lt := by
  obtain ⟨name, hhome, before, htrail⟩ := lt_iff_exists_child_le.mp h
  have hrev : b.trail.reverse = a.trail.reverse ++ name :: before.reverse := by
    simp [← htrail]
  rw [compare_eq, show a.home = b.home from hhome, Std.ReflOrd.compare_self, hrev]
  have hfirst := compare_append_left a.trail.reverse [] (name :: before.reverse)
  rw [List.append_nil] at hfirst
  rw [hfirst]
  rfl

/-- Below two siblings, what lies below the one with the lesser name comes before. -/
theorem compare_eq_lt_of_siblings {a b c : Address} {x y : String} (hx : a.child x ≤ b)
    (hy : a.child y ≤ c) (h : compare x y = .lt) : compare b c = .lt := by
  obtain ⟨hhome, before, htrail⟩ := hx
  obtain ⟨hhome', before', htrail'⟩ := hy
  have hb : b.trail.reverse = a.trail.reverse ++ x :: before.reverse := by simp [← htrail]
  have hc : c.trail.reverse = a.trail.reverse ++ y :: before'.reverse := by simp [← htrail']
  rw [compare_eq, ← hhome, ← hhome', hb, hc, compare_append_left, List.compare_cons_cons, h,
    home_child, home_child, Std.ReflOrd.compare_self]
  rfl

end Address

end SemanticIndex
