/-!
# Cutting Text

Cutting a text at a separator, joining the pieces again, and dropping leading characters.
All of it works on the list of characters.

The main statements are `join_split` (no character is lost by cutting), `notMem_of_mem_split` (no
piece holds the separator) and `split_intercalate` (cutting undoes joining).
-/

namespace SemanticIndex.Text

/-! ### On lists of characters -/

/-- The pieces of a list between the occurrences of `sep`; one more than there are occurrences. -/
def pieces (sep : Char) : List Char → List (List Char)
  | [] => [[]]
  | c :: cs =>
    if c = sep then
      [] :: pieces sep cs
    else
      match pieces sep cs with
      | [] => [[c]]
      | first :: rest => (c :: first) :: rest

/-- There is always a piece. -/
theorem pieces_ne_nil (sep : Char) (cs : List Char) : pieces sep cs ≠ [] := by
  cases cs with
  | nil => simp [pieces]
  | cons c cs =>
    unfold pieces
    split
    · simp
    · split <;> simp

/-- No piece holds the separator. -/
theorem notMem_of_mem_pieces {sep : Char} {cs piece : List Char} (h : piece ∈ pieces sep cs) :
    sep ∉ piece := by
  induction cs generalizing piece with
  | nil => simp_all [pieces]
  | cons c cs ih =>
    unfold pieces at h
    split at h
    · rcases List.mem_cons.1 h with rfl | h
      · simp
      · exact ih h
    · rename_i hc
      split at h
      · exact absurd (by assumption) (pieces_ne_nil sep cs)
      · rename_i first rest hp
        rcases List.mem_cons.1 h with rfl | h
        · have : sep ∉ first := ih (by simp [hp])
          simp [this, Ne.symm hc]
        · exact ih (by simp [hp, h])

/-- Putting the separator between the pieces gives the list back. -/
theorem intercalate_pieces (sep : Char) (cs : List Char) :
    [sep].intercalate (pieces sep cs) = cs := by
  induction cs with
  | nil => rfl
  | cons c cs ih =>
    unfold pieces
    split
    · rename_i hc
      subst hc
      cases hp : pieces c cs with
      | nil => exact absurd hp (pieces_ne_nil c cs)
      | cons first rest =>
        rw [hp] at ih
        simp only [List.intercalate, List.intersperse] at ih ⊢
        simp [ih]
    · cases hp : pieces sep cs with
      | nil => exact absurd hp (pieces_ne_nil sep cs)
      | cons first rest =>
        rw [hp] at ih
        cases rest with
        | nil => simp_all [List.intercalate, List.intersperse]
        | cons second rest => simp_all [List.intercalate, List.intersperse]

/-- A list without the separator is the one piece. -/
theorem pieces_of_notMem {sep : Char} {cs : List Char} (h : sep ∉ cs) : pieces sep cs = [cs] := by
  induction cs with
  | nil => rfl
  | cons c cs ih =>
    obtain ⟨hc, hcs⟩ := not_or.1 (mt List.mem_cons.2 h)
    rw [pieces, if_neg (Ne.symm hc), ih hcs]

/-- What stands before the first separator is the first piece. -/
theorem pieces_append_cons {sep : Char} {piece : List Char} (h : sep ∉ piece) (cs : List Char) :
    pieces sep (piece ++ sep :: cs) = piece :: pieces sep cs := by
  induction piece with
  | nil => rw [List.nil_append, pieces, if_pos rfl]
  | cons c piece ih =>
    obtain ⟨hc, hpiece⟩ := not_or.1 (mt List.mem_cons.2 h)
    rw [List.cons_append, pieces, if_neg (Ne.symm hc), ih hpiece]

/-- Lists without the separator, with separators put between them, are the pieces. -/
theorem pieces_intercalate {sep : Char} {ps : List (List Char)} (hne : ps ≠ [])
    (h : ∀ piece ∈ ps, sep ∉ piece) : pieces sep ([sep].intercalate ps) = ps := by
  induction ps with
  | nil => exact absurd rfl hne
  | cons piece ps ih =>
    obtain ⟨hpiece, hps⟩ := List.forall_mem_cons.1 h
    cases ps with
    | nil => simpa [List.intercalate, List.intersperse] using pieces_of_notMem hpiece
    | cons second ps =>
      have hcons : [sep].intercalate (piece :: second :: ps) =
          piece ++ sep :: [sep].intercalate (second :: ps) := by
        simp [List.intercalate, List.intersperse]
      rw [hcons, pieces_append_cons hpiece, ih (List.cons_ne_nil _ _) hps]

/-! ### On texts -/

/-- The pieces of a text between the occurrences of `sep`. -/
def split (sep : Char) (s : String) : List String :=
  (pieces sep s.toList).map String.ofList

/-- The text from the first character that `p` rejects. -/
def dropLeading (p : Char → Bool) (s : String) : String :=
  String.ofList (s.toList.dropWhile p)

/-- The text up to the first `sep`, or all of it. -/
def upTo (sep : Char) (s : String) : String :=
  String.ofList (s.toList.takeWhile (· != sep))

/-- No piece holds the separator. -/
theorem notMem_of_mem_split {sep : Char} {s piece : String} (h : piece ∈ split sep s) :
    sep ∉ piece.toList := by
  obtain ⟨cs, hcs, rfl⟩ := List.mem_map.1 h
  simpa using notMem_of_mem_pieces hcs

/-- Cutting loses no character. -/
theorem join_split (sep : Char) (s : String) :
    [sep].intercalate ((split sep s).map String.toList) = s.toList := by
  simp [split, Function.comp_def, intercalate_pieces]

/-- Cutting undoes joining, if no piece holds the separator. -/
theorem split_intercalate {sep : Char} {ss : List String} (hne : ss ≠ [])
    (h : ∀ s ∈ ss, sep ∉ s.toList) : split sep ((String.singleton sep).intercalate ss) = ss := by
  have hlists : ∀ piece ∈ ss.map String.toList, sep ∉ piece := List.forall_mem_map.2 h
  rw [split, String.toList_intercalate, String.toList_singleton,
    pieces_intercalate (mt List.map_eq_nil_iff.1 hne) hlists, List.map_map]
  simp [Function.comp_def]

/-- What stands before the parts of two joined texts does not matter to whether they have the same
parts, if no part holds the separator. -/
theorem eq_of_intercalate_append_eq {sep : Char} (front : List String) {ss ss' : List String}
    (hne : ss ≠ []) (hne' : ss' ≠ []) (h : ∀ s ∈ ss, sep ∉ s.toList)
    (h' : ∀ s ∈ ss', sep ∉ s.toList)
    (heq : (String.singleton sep).intercalate (front ++ ss) =
      (String.singleton sep).intercalate (front ++ ss')) : ss = ss' := by
  have hjoined : (String.singleton sep).intercalate ss =
      (String.singleton sep).intercalate ss' := by
    cases front with
    | nil => exact heq
    | cons first front =>
      have hfront := List.cons_ne_nil first front
      rw [String.intercalate_append_of_ne_nil hfront hne,
        String.intercalate_append_of_ne_nil hfront hne'] at heq
      exact String.append_right_inj _ |>.mp heq
  rw [← split_intercalate hne h, hjoined, split_intercalate hne' h']

/-- Dropping twice is dropping once. -/
@[simp]
theorem dropLeading_dropLeading (p : Char → Bool) (s : String) :
    dropLeading p (dropLeading p s) = dropLeading p s := by
  simp only [dropLeading, String.toList_ofList]
  congr 1
  generalize s.toList = cs
  induction cs with
  | nil => rfl
  | cons c cs ih => by_cases h : p c <;> simp [List.dropWhile, h, ih]

end SemanticIndex.Text
