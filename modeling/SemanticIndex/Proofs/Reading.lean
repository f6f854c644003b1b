import SemanticIndex.Proofs.Grouping

/-!
# Reading Texts Back

The canonical text of a plain value determines the value up to its grouping: two plain values have
one text exactly if grouped to the left they are the same (`Value.display_eq_iff`). So where nothing
but operands stand right of operators and behind signs, the text determines the value, and else it
need not (`Value.exists_same_text`).

A text is read from the left. Its first character tells what an operand begins with (`Lead`), a
number or a name ends where no more characters of names come (`append_inj_of_word`), and a blank
tells that an operator follows. `Value.ReadsOperand` and `Value.Reads` say so of single values, with
anything behind them that may stand there.
-/

namespace SemanticIndex

/-! ### Words -/

/-- A word ends where the first other character stands. -/
theorem append_inj_of_word {isWord : Char → Bool} {w w' u u' : List Char}
    (hw : ∀ c ∈ w, isWord c = true) (hw' : ∀ c ∈ w', isWord c = true)
    (hu : ∀ c ∈ u.head?, isWord c = false) (hu' : ∀ c ∈ u'.head?, isWord c = false)
    (h : w ++ u = w' ++ u') : w = w' ∧ u = u' := by
  have hread : ∀ {w u : List Char}, (∀ c ∈ w, isWord c = true) →
      (∀ c ∈ u.head?, isWord c = false) → (w ++ u).takeWhile isWord = w := by
    intro w u hw hu
    rw [List.takeWhile_append_of_pos hw]
    cases u with
    | nil => rw [List.takeWhile_nil, List.append_nil]
    | cons c u =>
      rw [List.takeWhile_cons_of_neg (by simpa using hu c rfl), List.append_nil]
  obtain rfl : w = w' := by rw [← hread hw hu, h, hread hw' hu']
  exact ⟨rfl, List.append_cancel_left h⟩

/-- What comes next may stand behind a number or a name. -/
def EndsWord (u : List Char) : Prop := ∀ c ∈ u.head?, isNameCharacter c = false

/-- What comes next may stand behind a value: nothing, or the rest of an array. -/
def EndsValue (s : List Char) : Prop := ∀ c ∈ s.head?, c = ',' ∨ c = '\x7d'

/-- A word ends where a value does. -/
theorem EndsValue.endsWord {s : List Char} (h : EndsValue s) : EndsWord s := by
  intro c hc
  obtain rfl | rfl := h c hc <;> decide

/-- What a value may begin with. -/
inductive Lead where
  | digit | letter | sign | brace

/-- What a character begins. -/
def Lead.ofChar (c : Char) : Lead :=
  if c.isDigit then .digit
  else if c = '-' ∨ c = '!' then .sign
  else if c = '\x7b' then .brace
  else .letter

/-- The character of an operator before an operand. -/
def UnaryOperator.sign : UnaryOperator → Char
  | neg => '-'
  | not => '!'

/-- No operator has a blank in it. -/
theorem BinaryOperator.ne_blank_of_mem_text (o : BinaryOperator) :
    ∀ c ∈ o.text.toList, (c != ' ') = true := by
  refine List.all_eq_true.mp ?_
  cases o <;> rfl

/-- A digit may stand in a name. -/
theorem isNameCharacter_of_isDigit {c : Char} (h : c.isDigit = true) :
    isNameCharacter c = true := by
  have hne : ∀ d : Char, d.isDigit = false → c ≠ d := by
    rintro d hd rfl
    rw [h] at hd
    cases hd
  simp [isNameCharacter, hne _ (show ' '.isDigit = false by decide),
    hne _ (show ','.isDigit = false by decide), hne _ (show '\x7b'.isDigit = false by decide),
    hne _ (show '\x7d'.isDigit = false by decide)]

/-- The characters of an identifier. -/
theorem exists_cons_of_isIdentifier {name : String} (h : isIdentifier name = true) :
    ∃ c cs, name.toList = c :: cs ∧ Lead.ofChar c = .letter ∧
      ∀ d ∈ c :: cs, isNameCharacter d = true := by
  unfold isIdentifier at h
  split at h
  · cases h
  · rename_i c cs hname
    simp only [Bool.and_eq_true, Bool.not_eq_true', bne_iff_ne, List.all_eq_true] at h
    obtain ⟨⟨⟨hdigit, hneg⟩, hnot⟩, hword⟩ := h
    have hbrace : c ≠ '\x7b' := by
      rintro rfl
      exact absurd (hword _ List.mem_cons_self) (by decide)
    refine ⟨c, cs, hname, ?_, hword⟩
    simp [Lead.ofChar, hdigit, hneg, hnot, hbrace]

namespace Value

/-! ### Spelling -/

/-- The characters of the text of a value, with `s` behind them. -/
def spell (v : Value) (s : List Char) : List Char := v.display.toList ++ s

/-- The items of an array behind one of them, with `s` behind the array. -/
def spellItems : List Value → List Char → List Char
  | [], s => '\x7d' :: s
  | x :: xs, s => ',' :: ' ' :: x.spell (spellItems xs s)

/-- A number is spelled by its digits. -/
theorem spell_int {i : Int64} {p : Position} (h : (int i p).isPlain = true) (s : List Char) :
    (int i p).spell s = Nat.toDigits 10 i.toInt.toNat ++ s := by
  obtain ⟨n, hn⟩ := Int.eq_ofNat_of_zero_le (of_decide_eq_true h)
  have htext : toString (Int.ofNat n) = Nat.repr n := rfl
  rw [spell, display, hn]
  show (toString (Int.ofNat n)).toList ++ s = _
  rw [htext, Nat.toList_repr]
  rfl

theorem spell_binary (o : BinaryOperator) (l r : Value) (p : Position) (s : List Char) :
    (binary o l r p).spell s = l.spell (' ' :: (o.text.toList ++ ' ' :: r.spell s)) := by
  simp [spell, display]

theorem spell_unary (o : UnaryOperator) (x : Value) (p : Position) (s : List Char) :
    (unary o x p).spell s = o.sign :: x.spell s := by
  cases o <;> simp [spell, display, UnaryOperator.text, UnaryOperator.sign]

theorem spell_array_nil (p : Position) (s : List Char) :
    (array [] p).spell s = '\x7b' :: '\x7d' :: s := by
  simp [spell, display, displayAll]

theorem spell_array_cons (x : Value) (xs : List Value) (p : Position) (s : List Char) :
    (array (x :: xs) p).spell s = '\x7b' :: x.spell (spellItems xs s) := by
  have hitems : ∀ (x : Value) (xs : List Value),
      (", ".intercalate (displayAll (x :: xs))).toList ++ '\x7d' :: s =
        x.spell (spellItems xs s) := by
    intro x xs
    induction xs generalizing x with
    | nil => simp [displayAll, spell, spellItems]
    | cons y ys ih =>
      rw [spellItems, ← ih, displayAll, String.intercalate_cons_of_ne_nil]
      · simp [spell]
      · simp [displayAll]
  rw [← hitems, spell, display]
  simp

/-! ### Beginnings -/

/-- What the text of a value begins with. -/
def lead : Value → Lead
  | int .. => .digit
  | unary .. => .sign
  | array .. => .brace
  | binary _ l _ _ => lead l
  | string .. | float .. | bool .. | reference .. | atReference .. => .letter

/-- The first character tells what it is, and does not close an array. -/
theorem exists_lead {v : Value} (h : v.isPlain = true) (s : List Char) :
    ∃ c cs, v.spell s = c :: cs ∧ Lead.ofChar c = v.lead ∧ c ≠ '\x7d' := by
  induction v using Value.induction generalizing s with
  | string | float | bool | atReference => cases h
  | int i p =>
    rw [spell_int h]
    cases hdigits : Nat.toDigits 10 i.toInt.toNat with
    | nil => exact absurd hdigits Nat.toDigits_ne_nil
    | cons c cs =>
      have hdigit : c.isDigit = true :=
        Nat.isDigit_of_mem_toDigits (by decide) (by decide) (hdigits ▸ List.mem_cons_self)
      refine ⟨c, cs ++ s, rfl, by simp [Lead.ofChar, hdigit, lead], ?_⟩
      rintro rfl
      cases hdigit
  | reference name p =>
    obtain ⟨c, cs, hname, hlead, hword⟩ := exists_cons_of_isIdentifier h
    refine ⟨c, cs ++ s, by rw [spell, display, hname]; rfl, hlead, ?_⟩
    rintro rfl
    exact absurd (hword _ List.mem_cons_self) (by decide)
  | binary o l r p hl _ =>
    rw [isPlain, Bool.and_eq_true] at h
    rw [spell_binary]
    -- an expression begins as its left side does
    exact hl h.1 _
  | unary o x p =>
    rw [spell_unary]
    exact ⟨o.sign, _, rfl, by cases o <;> rfl, by cases o <;> decide⟩
  | array xs p =>
    cases xs with
    | nil => exact ⟨_, _, spell_array_nil p s, rfl, by decide⟩
    | cons x xs => exact ⟨_, _, spell_array_cons x xs p s, rfl, by decide⟩

end Value

/-! ### Operators in a row -/

/-- A binary operator with what stands right of it. -/
structure Application where
  operator : BinaryOperator
  operand : Value
  position : Position

namespace Value

/-- The value with operators applied to it, one after the other. -/
def applyAll (v : Value) (as : List Application) : Value :=
  as.foldl (fun l a => .binary a.operator l a.operand a.position) v

/-- The characters of some applications, with `s` behind them. -/
def spellAll : List Application → List Char → List Char
  | [], s => s
  | a :: as, s => ' ' :: (a.operator.text.toList ++ ' ' :: a.operand.spell (spellAll as s))

/-- A word ends where an operator or the end of the value follows. -/
theorem endsWord_spellAll {as : List Application} {s : List Char} (hs : EndsValue s) :
    EndsWord (spellAll as s) := by
  cases as with
  | nil => exact hs.endsWord
  | cons a as =>
    intro c hc
    obtain rfl := Option.some.inj hc
    decide

/-- The value is plain, and so is its part of a row of operators. -/
structure IsPlainOperand (g : Value) : Prop where
  isPlain : g.isPlain = true
  isLeftGrouped : g.isLeftGrouped = true
  isOperand : g.isOperand = true

/-- Read as an operand, a text that begins with `f` begins with nothing but `f`. -/
def ReadsOperand (f : Value) : Prop :=
  ∀ g u u', g.IsPlainOperand → EndsWord u → EndsWord u' → f.spell u = g.spell u' →
    f.same g = true ∧ u = u'

/-- Read as a value, a text that begins with `v` and applications behind it begins with nothing
else. -/
def Reads (v : Value) : Prop :=
  ∀ (w : Value) (as bs : List Application) (s s' : List Char),
    (∀ a ∈ as, a.operand.ReadsOperand) → w.isPlain = true → w.isLeftGrouped = true →
    (∀ b ∈ bs, b.operand.IsPlainOperand) → EndsValue s → EndsValue s' →
      v.spell (spellAll as s) = w.spell (spellAll bs s') →
        (v.applyAll as).same (w.applyAll bs) = true ∧ s = s'

/-- Operators in a row are read one by one, a blank telling whether there is another one. -/
theorem same_applyAll {as bs : List Application} {f g : Value} {s s' : List Char}
    (has : ∀ a ∈ as, a.operand.ReadsOperand) (hbs : ∀ b ∈ bs, b.operand.IsPlainOperand)
    (hs : EndsValue s) (hs' : EndsValue s') (hfg : f.same g = true)
    (h : spellAll as s = spellAll bs s') :
    (f.applyAll as).same (g.applyAll bs) = true ∧ s = s' := by
  -- a blank does not end a value
  have hblank : ∀ {s : List Char}, EndsValue s → ∀ cs, s ≠ ' ' :: cs := by
    rintro s hs cs rfl
    have hends := hs ' ' rfl
    revert hends
    decide
  induction as generalizing bs f g with
  | nil =>
    cases bs with
    | nil => exact ⟨hfg, h⟩
    | cons b bs => exact absurd h (hblank hs _)
  | cons a as ih =>
    cases bs with
    | nil => exact absurd h.symm (hblank hs' _)
    | cons b bs =>
      obtain ⟨ha, has⟩ := List.forall_mem_cons.mp has
      obtain ⟨hb, hbs⟩ := List.forall_mem_cons.mp hbs
      obtain ⟨htext, hrest⟩ := append_inj_of_word a.operator.ne_blank_of_mem_text
        b.operator.ne_blank_of_mem_text (by simp) (by simp) (List.cons.inj h).2
      obtain ⟨hsame, htail⟩ := ha _ _ _ hb (endsWord_spellAll hs) (endsWord_spellAll hs')
        (List.cons.inj hrest).2
      have heq : a.operator = b.operator :=
        BinaryOperator.text_injective (String.toList_inj.mp htext)
      have hnext : (binary a.operator f a.operand a.position).same
          (binary b.operator g b.operand b.position) = true := by
        rw [same, hfg, hsame, heq, beq_self_eq_true]
        rfl
      obtain ⟨hall, hend⟩ := ih has hbs hnext htail
      exact ⟨hall, hend⟩

/-- A value that is read as an operand is read with any applications behind it. -/
theorem ReadsOperand.reads {f : Value} (hf : f.ReadsOperand) : f.Reads := by
  intro w as bs s s' has hw hgrouped hbs hs hs' h
  -- by induction on `w`: its applications come before those behind it
  induction w using Value.induction generalizing bs with
  | binary o l r p hl _ =>
    simp only [isPlain, isLeftGrouped, Bool.and_eq_true] at hw hgrouped
    rw [spell_binary] at h
    exact hl (⟨o, r, p⟩ :: bs) hw.1 hgrouped.1.1
      (List.forall_mem_cons.mpr ⟨⟨hw.2, hgrouped.1.2, hgrouped.2⟩, hbs⟩) h
  | string | int | float | bool | reference | atReference | unary | array =>
    have hoperand := (isOperand_or_eq_binary hgrouped).resolve_right (by simp)
    obtain ⟨hsame, htail⟩ := hf _ _ _ ⟨hw, hgrouped, hoperand⟩ (endsWord_spellAll hs)
      (endsWord_spellAll hs') h
    exact same_applyAll has hbs hs hs' hsame htail

/-- A value is read with anything behind it that may stand there. -/
theorem Reads.same_of_spell {v w : Value} {s s' : List Char} (hv : v.Reads)
    (hw : w.isPlain = true) (hgrouped : w.isLeftGrouped = true) (hs : EndsValue s)
    (hs' : EndsValue s') (h : v.spell s = w.spell s') : v.same w = true ∧ s = s' :=
  hv w [] [] s s' (fun _ h => nomatch h) hw hgrouped (fun _ h => nomatch h) hs hs' h

/-- A value ends where further items or the end of the array follow. -/
theorem endsValue_spellItems (xs : List Value) (s : List Char) : EndsValue (spellItems xs s) := by
  intro c hc
  cases xs with
  | nil => exact Or.inr (Option.some.inj hc).symm
  | cons x xs => exact Or.inl (Option.some.inj hc).symm

/-! ### Operands -/

/-- Operands that are spelled alike begin alike. -/
theorem lead_eq {f g : Value} {u u' : List Char} (hf : f.isPlain = true) (hg : g.isPlain = true)
    (h : f.spell u = g.spell u') : f.lead = g.lead := by
  obtain ⟨c, cs, hc, hlead, -⟩ := exists_lead hf u
  obtain ⟨c', cs', hc', hlead', -⟩ := exists_lead hg u'
  obtain rfl : c = c' := (List.cons.inj (hc.symm.trans (h.trans hc'))).1
  rw [← hlead, hlead']

/-- A number is read as an operand. -/
theorem readsOperand_int {i : Int64} {p : Position} (hi : (int i p).isPlain = true) :
    (int i p).ReadsOperand := by
  intro g u u' hg hu hu' h
  have hlead := lead_eq hi hg.isPlain h
  cases g with
  | int j q =>
    have hdigits : ∀ n, ∀ c ∈ Nat.toDigits 10 n, isNameCharacter c = true := fun n c hc =>
      isNameCharacter_of_isDigit (Nat.isDigit_of_mem_toDigits (by decide) (by decide) hc)
    rw [spell_int hi, spell_int hg.isPlain] at h
    obtain ⟨htext, hrest⟩ := append_inj_of_word (hdigits _) (hdigits _) hu hu' h
    have hnat : i.toInt.toNat = j.toInt.toNat := by
      rw [← Nat.ofDigitChars_ten_toDigits (n := i.toInt.toNat), htext,
        Nat.ofDigitChars_ten_toDigits]
    have hnumbers : i = j := by
      have hj : 0 ≤ j.toInt := of_decide_eq_true hg.isPlain
      have hi : 0 ≤ i.toInt := of_decide_eq_true hi
      exact Int64.toInt_inj.mp (by omega)
    refine ⟨?_, hrest⟩
    rw [same, hnumbers, beq_self_eq_true]
  | string | float | bool | atReference => cases hg.isPlain
  | binary => cases hg.isOperand
  | reference | unary | array => cases hlead

/-- A name is read as an operand. -/
theorem readsOperand_reference {name : String} {p : Position}
    (hname : (reference name p).isPlain = true) : (reference name p).ReadsOperand := by
  intro g u u' hg hu hu' h
  have hlead := lead_eq hname hg.isPlain h
  cases g with
  | reference name' q =>
    obtain ⟨c, cs, hcs, -, hword⟩ := exists_cons_of_isIdentifier hname
    obtain ⟨c', cs', hcs', -, hword'⟩ := exists_cons_of_isIdentifier hg.isPlain
    obtain ⟨htext, hrest⟩ := append_inj_of_word (hcs ▸ hword) (hcs' ▸ hword') hu hu' h
    have hnames : name = name' := String.toList_inj.mp htext
    refine ⟨?_, hrest⟩
    rw [same, hnames, beq_self_eq_true]
  | string | float | bool | atReference => cases hg.isPlain
  | binary => cases hg.isOperand
  | int | unary | array => cases hlead

/-- An operand behind a sign is read as one. -/
theorem ReadsOperand.unary {o : UnaryOperator} {x : Value} {p : Position}
    (hplain : (unary o x p).isPlain = true) (hx : x.ReadsOperand) :
    (unary o x p).ReadsOperand := by
  intro g u u' hg hu hu' h
  have hlead := lead_eq hplain hg.isPlain h
  cases g with
  | unary o' x' q =>
    rw [spell_unary, spell_unary] at h
    obtain ⟨hsign, h⟩ := List.cons.inj h
    have hoperator : o = o' := by
      cases o <;> cases o' <;> first | rfl | cases hsign
    have hgrouped := hg.isLeftGrouped
    rw [isLeftGrouped, Bool.and_eq_true] at hgrouped
    obtain ⟨hsame, hrest⟩ := hx x' u u' ⟨hg.isPlain, hgrouped.1, hgrouped.2⟩ hu hu' h
    refine ⟨?_, hrest⟩
    rw [same, hsame, hoperator, beq_self_eq_true]
    rfl
  | string | float | bool | atReference => cases hg.isPlain
  | binary => cases hg.isOperand
  | int | reference | array => cases hlead

/-- The items of an array are read one by one, a comma telling whether there is another one. -/
theorem sameAll_of_spellItems {xs ys : List Value} {u u' : List Char} (hxs : ∀ x ∈ xs, x.Reads)
    (hys : ∀ y ∈ ys, y.isPlain = true ∧ y.isLeftGrouped = true)
    (h : spellItems xs u = spellItems ys u') : sameAll xs ys = true ∧ u = u' := by
  induction xs generalizing ys with
  | nil =>
    cases ys with
    | nil => exact ⟨rfl, (List.cons.inj h).2⟩
    | cons y ys => exact absurd (List.cons.inj h).1 (by decide)
  | cons x xs ih =>
    cases ys with
    | nil => exact absurd (List.cons.inj h).1 (by decide)
    | cons y ys =>
      obtain ⟨hx, hxs⟩ := List.forall_mem_cons.mp hxs
      obtain ⟨hy, hys⟩ := List.forall_mem_cons.mp hys
      obtain ⟨hsame, hrest⟩ := hx.same_of_spell hy.1 hy.2 (endsValue_spellItems xs u)
        (endsValue_spellItems ys u') (List.cons.inj (List.cons.inj h).2).2
      obtain ⟨hitems, hend⟩ := ih hxs hys hrest
      exact ⟨by rw [sameAll, hsame, hitems]; rfl, hend⟩

/-- No item begins like the end of an array. -/
theorem spell_ne_close {x : Value} (hx : x.isPlain = true) (s cs : List Char) :
    x.spell s ≠ '\x7d' :: cs := by
  intro h
  obtain ⟨c, cs', hc, -, hne⟩ := exists_lead hx s
  exact hne (List.cons.inj (hc.symm.trans h)).1

/-- An array is read as an operand if its items are read. -/
theorem readsOperand_array {xs : List Value} {p : Position}
    (hplain : (array xs p).isPlain = true) (hxs : ∀ x ∈ xs, x.Reads) :
    (array xs p).ReadsOperand := by
  intro g u u' hg hu hu' h
  have hlead := lead_eq hplain hg.isPlain h
  cases g with
  | array ys q =>
    have hxplain : ∀ x ∈ xs, x.isPlain = true := by
      rwa [isPlain, allPlain_eq_all, List.all_eq_true] at hplain
    have hys : ∀ y ∈ ys, y.isPlain = true ∧ y.isLeftGrouped = true := by
      have hgplain := hg.isPlain
      have hgrouped := hg.isLeftGrouped
      rw [isPlain, allPlain_eq_all, List.all_eq_true] at hgplain
      rw [isLeftGrouped, allLeftGrouped_eq_all, List.all_eq_true] at hgrouped
      exact fun y hy => ⟨hgplain y hy, hgrouped y hy⟩
    show sameAll xs ys = true ∧ u = u'
    cases xs with
    | nil =>
      cases ys with
      | nil =>
        rw [spell_array_nil, spell_array_nil] at h
        exact ⟨rfl, (List.cons.inj (List.cons.inj h).2).2⟩
      | cons y ys =>
        rw [spell_array_nil, spell_array_cons] at h
        exact absurd (List.cons.inj h).2.symm (spell_ne_close (hys y List.mem_cons_self).1 _ u)
    | cons x xs =>
      cases ys with
      | nil =>
        rw [spell_array_nil, spell_array_cons] at h
        exact absurd (List.cons.inj h).2 (spell_ne_close (hxplain x List.mem_cons_self) _ u')
      | cons y ys =>
        -- behind the brace the items are spelled as if another one stood before them
        rw [spell_array_cons, spell_array_cons] at h
        exact sameAll_of_spellItems hxs hys
          (congrArg (fun cs => ',' :: ' ' :: cs) (List.cons.inj h).2)
  | string | float | bool | atReference => cases hg.isPlain
  | binary => cases hg.isOperand
  | int | reference | unary => cases hlead

/-! ### Values -/

/-- Plain values that are grouped to the left are read back, operands as operands. -/
theorem reads_of_isLeftGrouped {v : Value} (hv : v.isPlain = true) (h : v.isLeftGrouped = true) :
    (v.isOperand = true → v.ReadsOperand) ∧ v.Reads := by
  induction v using Value.induction with
  | string | float | bool | atReference => cases hv
  | int i p => exact ⟨fun _ => readsOperand_int hv, (readsOperand_int hv).reads⟩
  | reference name p =>
    exact ⟨fun _ => readsOperand_reference hv, (readsOperand_reference hv).reads⟩
  | unary o x p hx =>
    simp only [isLeftGrouped, Bool.and_eq_true] at h
    have hread := ReadsOperand.unary (o := o) (p := p) hv ((hx hv h.1).1 h.2)
    exact ⟨fun _ => hread, hread.reads⟩
  | array xs p ih =>
    have hplain := hv
    rw [isPlain, allPlain_eq_all, List.all_eq_true] at hplain
    rw [isLeftGrouped, allLeftGrouped_eq_all, List.all_eq_true] at h
    have hread := readsOperand_array hv fun x hx => (ih x hx (hplain x hx) (h x hx)).2
    exact ⟨fun _ => hread, hread.reads⟩
  | binary o l r p hl hr =>
    simp only [isPlain, isLeftGrouped, Bool.and_eq_true] at hv h
    refine ⟨fun hoperand => absurd hoperand Bool.false_ne_true, ?_⟩
    -- the operator is the first of those that are applied to `l`
    intro w as bs s s' has hw hgrouped hbs hs hs' heq
    rw [spell_binary] at heq
    have hoperand := (hr hv.2 h.1.2).1 h.2
    exact (hl hv.1 h.1.1).2 w (⟨o, r, p⟩ :: as) bs s s'
      (List.forall_mem_cons.mpr ⟨hoperand, has⟩) hw hgrouped hbs hs hs' heq

/-- The text determines plain values that are grouped to the left. -/
theorem same_of_display_eq {v w : Value} (hv : v.isPlain = true) (hw : w.isPlain = true)
    (hvgrouped : v.isLeftGrouped = true) (hwgrouped : w.isLeftGrouped = true)
    (h : v.display = w.display) : v.same w = true := by
  have hend : EndsValue [] := fun _ hc => nomatch hc
  have hspell : v.spell [] = w.spell [] := by rw [spell, spell, h]
  exact ((reads_of_isLeftGrouped hv hvgrouped).2.same_of_spell hw hwgrouped hend hend hspell).1

/-- The canonical text of a plain value determines which operands and operators it has, in which
order, but not how they are grouped: two such values have the same text exactly if they are the same
when grouped to the left, which does not change the text. So the text determines the value where
only operands stand right of binary operators and behind unary ones. -/
theorem display_eq_iff {v w : Value} (hv : v.isPlain = true) (hw : w.isPlain = true) :
    (v.display = w.display ↔ v.leftGrouped.same w.leftGrouped = true) ∧
      v.leftGrouped.display = v.display ∧ v.leftGrouped.isLeftGrouped = true ∧
      (v.isLeftGrouped = true → w.isLeftGrouped = true → v.display = w.display →
        v.same w = true) := by
  refine ⟨⟨fun h => ?_, fun h => ?_⟩, display_leftGrouped v, isLeftGrouped_leftGrouped v,
    same_of_display_eq hv hw⟩
  · refine same_of_display_eq (isPlain_leftGrouped hv) (isPlain_leftGrouped hw)
      (isLeftGrouped_leftGrouped v) (isLeftGrouped_leftGrouped w) ?_
    rw [display_leftGrouped, display_leftGrouped, h]
  · rw [← display_leftGrouped v, display_eq_of_same (isPlain_leftGrouped hv) h,
      display_leftGrouped w]

/-- The product of a sum, as opposed to the sum with a product. -/
def productOfSum : Value :=
  .binary .mul (.binary .add (.reference "a" .start) (.reference "b" .start) .start)
    (.reference "c" .start) .start

/-- The sum with a product. -/
def sumWithProduct : Value :=
  .binary .add (.reference "a" .start)
    (.binary .mul (.reference "b" .start) (.reference "c" .start) .start) .start

/-- Grouped to the left, both are the product of the sum. -/
theorem display_eq_iff_product :
    productOfSum.isPlain = true ∧ sumWithProduct.isPlain = true ∧
      productOfSum.leftGrouped.same sumWithProduct.leftGrouped = true ∧
      productOfSum.display = sumWithProduct.display := by
  have hproduct : productOfSum.isPlain = true := by decide
  have hsum : sumWithProduct.isPlain = true := by decide
  have hsame : productOfSum.leftGrouped.same sumWithProduct.leftGrouped = true := by decide
  exact ⟨hproduct, hsum, hsame, (display_eq_iff hproduct hsum).1.mpr hsame⟩

/-- The product of a sum has the text of the sum with a product. -/
theorem exists_same_text :
    ∃ v w : Value, v.isPlain = true ∧ w.isPlain = true ∧ v.display = w.display ∧
      v.same w = false :=
  ⟨productOfSum, sumWithProduct, by decide, by decide, by decide, by decide⟩

end Value

end SemanticIndex
