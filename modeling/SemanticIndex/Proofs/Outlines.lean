import SemanticIndex.Proofs.Contents

/-!
# What a Document Deposits

The outline of a document, read as deposits: each block puts its fragment at an address below the
top address of the file (`Outline.deposits`), and on the way there the file visits addresses
(`Outline.visited`). Every visited address has a deposit at or below it
(`Outline.exists_deposit_of_mem_visited`), the scope of every mention is the address of a block
(`Document.exists_block_of_mention`), and every deposited fragment carries the file's path
(`Document.file_eq_of_mem_deposits`).
-/

namespace SemanticIndex

/-! ### Blocks of definitions -/

namespace Definition

section

variable (file : SourcePath) (comments : List Comment)

mutual

/-- The blocks of a definition are of its file. -/
theorem file_of_mem_blocks (path : List String) (c : Bool) (d : Definition) :
    ∀ b ∈ blocks file comments path c d, b.fragment.file = file := by
  intro b hb
  cases d with
  | object name body span =>
    rw [blocks, List.mem_append, List.mem_singleton] at hb
    rcases hb with hb | rfl
    · exact file_of_mem_blocksAll (path ++ [name.text]) c body b hb
    · rfl
  | conditional condition thenBody elseBody span =>
    rw [blocks, List.mem_append] at hb
    rcases hb with hb | hb
    · exact file_of_mem_blocksAll path true thenBody b hb
    · exact file_of_mem_blocksAll path true elseBody b hb
  | loop key value items body span =>
    rw [blocks] at hb
    exact file_of_mem_blocksAll path true body b hb
  | instantiation i =>
    rw [blocks, List.mem_singleton] at hb
    subst hb
    rfl
  | field | var | template => simp [blocks] at hb

/-- The blocks of a body are of its file. -/
theorem file_of_mem_blocksAll (path : List String) (c : Bool) (ds : List Definition) :
    ∀ b ∈ blocksAll file comments path c ds, b.fragment.file = file := by
  intro b hb
  cases ds with
  | nil => simp [blocksAll] at hb
  | cons d ds =>
    rw [blocksAll, List.mem_append] at hb
    rcases hb with hb | hb
    · exact file_of_mem_blocks path c d b hb
    · exact file_of_mem_blocksAll path c ds b hb

end

mutual

/-- A block is declared by the last name of its path. -/
theorem getLast?_path_of_mem_blocks (path : List String) (c : Bool) (d : Definition) :
    ∀ b ∈ blocks file comments path c d, b.path.getLast? = some b.fragment.declaredName := by
  intro b hb
  cases d with
  | object name body span =>
    rw [blocks, List.mem_append, List.mem_singleton] at hb
    rcases hb with hb | rfl
    · exact getLast?_path_of_mem_blocksAll (path ++ [name.text]) c body b hb
    · exact List.getLast?_concat
  | conditional condition thenBody elseBody span =>
    rw [blocks, List.mem_append] at hb
    rcases hb with hb | hb
    · exact getLast?_path_of_mem_blocksAll path true thenBody b hb
    · exact getLast?_path_of_mem_blocksAll path true elseBody b hb
  | loop key value items body span =>
    rw [blocks] at hb
    exact getLast?_path_of_mem_blocksAll path true body b hb
  | instantiation i =>
    rw [blocks, List.mem_singleton] at hb
    subst hb
    exact List.getLast?_concat
  | field | var | template => simp [blocks] at hb

/-- A block of a body is declared by the last name of its path. -/
theorem getLast?_path_of_mem_blocksAll (path : List String) (c : Bool) (ds : List Definition) :
    ∀ b ∈ blocksAll file comments path c ds,
      b.path.getLast? = some b.fragment.declaredName := by
  intro b hb
  cases ds with
  | nil => simp [blocksAll] at hb
  | cons d ds =>
    rw [blocksAll, List.mem_append] at hb
    rcases hb with hb | hb
    · exact getLast?_path_of_mem_blocks path c d b hb
    · exact getLast?_path_of_mem_blocksAll path c ds b hb

end

mutual

/-- A mention stands in the body that is looked at, or in an object that has a block. -/
theorem exists_block_of_mem_mentions (path locals : List String) (c : Bool) (d : Definition) :
    ∀ m ∈ mentions path locals d,
      m.1 = path ∨ ∃ b ∈ blocks file comments path c d, b.path = m.1 := by
  intro m hm
  cases d with
  -- nothing is nested in these, so all their mentions stand in the body itself
  | field | var | template | instantiation =>
    left
    simp only [mentions, List.mem_append, List.mem_map] at hm
    grind
  | object name body span =>
    rw [mentions, List.mem_append] at hm
    rcases hm with hm | hm
    -- a name that is computed mentions what it does in the scope around the object
    · left
      split at hm
      · cases hm
      · obtain ⟨_, -, rfl⟩ := List.mem_map.mp hm
        rfl
    · right
      rcases exists_block_of_mem_mentionsAll (path ++ [name.text]) locals c body m hm with
        hpath | ⟨b, hb, hpath⟩
      · exact ⟨_, by rw [blocks]; exact List.mem_append_right _ (List.mem_singleton_self _),
          hpath.symm⟩
      · exact ⟨b, by rw [blocks]; exact List.mem_append_left _ hb, hpath⟩
  | conditional condition thenBody elseBody span =>
    rw [mentions, List.mem_append, List.mem_append] at hm
    rcases hm with (hm | hm) | hm
    · obtain ⟨_, -, rfl⟩ := List.mem_map.mp hm
      exact Or.inl rfl
    · refine (exists_block_of_mem_mentionsAll path locals true thenBody m hm).imp_right ?_
      rintro ⟨b, hb, hpath⟩
      exact ⟨b, by rw [blocks]; exact List.mem_append_left _ hb, hpath⟩
    · refine (exists_block_of_mem_mentionsAll path locals true elseBody m hm).imp_right ?_
      rintro ⟨b, hb, hpath⟩
      exact ⟨b, by rw [blocks]; exact List.mem_append_right _ hb, hpath⟩
  | loop key value items body span =>
    rw [mentions, List.mem_append] at hm
    rcases hm with hm | hm
    · obtain ⟨_, -, rfl⟩ := List.mem_map.mp hm
      exact Or.inl rfl
    · refine (exists_block_of_mem_mentionsAll path _ true body m hm).imp_right ?_
      rintro ⟨b, hb, hpath⟩
      exact ⟨b, by rw [blocks]; exact hb, hpath⟩

/-- A mention in a body stands in the body itself, or in an object that has a block. -/
theorem exists_block_of_mem_mentionsAll (path locals : List String) (c : Bool)
    (ds : List Definition) :
    ∀ m ∈ mentionsAll path locals ds,
      m.1 = path ∨ ∃ b ∈ blocksAll file comments path c ds, b.path = m.1 := by
  intro m hm
  cases ds with
  | nil => simp [mentionsAll] at hm
  | cons d ds =>
    rw [mentionsAll, List.mem_append] at hm
    rcases hm with hm | hm
    · refine (exists_block_of_mem_mentions path locals c d m hm).imp_right ?_
      rintro ⟨b, hb, hpath⟩
      exact ⟨b, by rw [blocksAll]; exact List.mem_append_left _ hb, hpath⟩
    · refine (exists_block_of_mem_mentionsAll path locals c ds m hm).imp_right ?_
      rintro ⟨b, hb, hpath⟩
      exact ⟨b, by rw [blocksAll]; exact List.mem_append_right _ hb, hpath⟩

end

end

end Definition

/-! ### Deposits of an outline -/

/-- The block with other pragmas. -/
def Block.withPragmas (b : Block) (pragmas : List String) : Block :=
  { b with fragment := { b.fragment with pragmas } }

/-- The address of a block below the top address of its file. -/
def Block.address (top : Address) (b : Block) : Address := top.down (b.path.map nodeName)

namespace Outline

variable (o : Outline) (path : SourcePath)

/-- The address of the file's package, or of its own root. -/
def topAddress : Address :=
  match o.packagePath with
  | [] => .isolated path.components
  | names => Address.origin.down (names.map nodeName)

/-- The addresses on the way to the top address, its own last. -/
def opening : List Address :=
  match o.packagePath with
  | [] => [.isolated path.components]
  | names => Address.origin.steps (names.map nodeName)

/-- The fragments of the blocks, each with its address. -/
def deposits : List Deposit := o.blocks.map fun b => (b.address (o.topAddress path), b.fragment)

/-- The addresses that the file comes to, in the order in which it first does. -/
def visited : List Address :=
  o.blocks.foldl (fun as b => Address.touch as ((o.topAddress path).steps (b.path.map nodeName)))
    (o.opening path)

/-- The file in whose tree the outline is laid, if it has a tree of its own. -/
def home : Option (List PathComponent) :=
  if o.packagePath.isEmpty then some path.components else none

variable {o path}

/-- The top of a file stands in its home. -/
theorem home_topAddress : (o.topAddress path).home = o.home path := by
  unfold topAddress home
  cases o.packagePath with
  | nil => rfl
  | cons x names =>
    show (Address.origin.down _).home = none
    rw [Address.down_eq]
    rfl

/-- The deposits of a file stand in its home. -/
theorem home_of_mem_deposits {d : Deposit} (hd : d ∈ o.deposits path) :
    d.1.home = o.home path := by
  obtain ⟨b, -, rfl⟩ := List.mem_map.mp hd
  rw [← home_topAddress, Block.address, Address.down_eq]

/-- Opening a file leads to its top. -/
theorem topAddress_mem_opening : o.topAddress path ∈ o.opening path := by
  unfold topAddress opening
  cases o.packagePath with
  | nil => exact List.mem_singleton_self _
  | cons x names =>
    rw [Address.mem_steps_iff]
    exact ⟨lt_of_lt_of_le (Address.lt_child _ _) (Address.le_down _ _), le_rfl⟩

/-- Opening a file leads to nothing but its top and what is above. -/
theorem le_topAddress_of_mem_opening {a : Address} (ha : a ∈ o.opening path) :
    a ≤ o.topAddress path := by
  unfold opening at ha
  unfold topAddress
  split at ha
  · rw [List.mem_singleton] at ha
    exact ha.le
  · exact (Address.mem_steps_iff.mp ha).2

theorem mem_visited_iff {a : Address} :
    a ∈ o.visited path ↔ a ∈ o.opening path ∨
      ∃ b ∈ o.blocks, a ∈ (o.topAddress path).steps (b.path.map nodeName) := by
  -- whatever has been visited before the blocks
  have hfold : ∀ (bs : List Block) (as : List Address),
      a ∈ bs.foldl
          (fun as b => Address.touch as ((o.topAddress path).steps (b.path.map nodeName))) as ↔
        a ∈ as ∨ ∃ b ∈ bs, a ∈ (o.topAddress path).steps (b.path.map nodeName) := by
    intro bs
    induction bs with
    | nil => simp
    | cons b bs ih =>
      intro as
      rw [List.foldl_cons, ih, Address.mem_touch_iff, or_assoc]
      simp
  exact hfold _ _

theorem topAddress_mem_visited : o.topAddress path ∈ o.visited path :=
  mem_visited_iff.mpr (Or.inl topAddress_mem_opening)

/-- A block's address is visited. -/
theorem address_mem_visited {b : Block} (hb : b ∈ o.blocks) :
    b.address (o.topAddress path) ∈ o.visited path := by
  -- the block of the file itself stands at the top; the others lie below
  rcases (Address.le_down (o.topAddress path) (b.path.map nodeName)).eq_or_lt with heq | hlt
  · rw [Block.address, ← heq]
    exact topAddress_mem_visited
  · exact mem_visited_iff.mpr (Or.inr ⟨b, hb, Address.mem_steps_iff.mpr ⟨hlt, le_rfl⟩⟩)

/-- Deposits are left at addresses that are visited. -/
theorem mem_visited_of_mem_deposits {d : Deposit} (hd : d ∈ o.deposits path) :
    d.1 ∈ o.visited path := by
  obtain ⟨b, hb, rfl⟩ := List.mem_map.mp hd
  exact address_mem_visited hb

end Outline

namespace Document

open Outline

variable {path : SourcePath} {d : Document}

/-- Each block is there with the pragmas that it gets. -/
theorem exists_mem_attachPragmas {blocks : List Block} (homes : List (Pragma × Option Nat))
    {b : Block} (hb : b ∈ blocks) :
    ∃ pragmas, b.withPragmas pragmas ∈ attachPragmas blocks homes := by
  obtain ⟨i, hi, rfl⟩ := List.mem_iff_getElem.mp hb
  refine ⟨_, List.mem_map.mpr ⟨(blocks[i], i), ?_, rfl⟩⟩
  exact List.mk_mem_zipIdx_iff_getElem?.mpr (List.getElem?_eq_getElem hi)

/-- No block is there but those that get pragmas. -/
theorem exists_of_mem_attachPragmas {blocks : List Block} {homes : List (Pragma × Option Nat)}
    {b : Block} (hb : b ∈ attachPragmas blocks homes) :
    ∃ b' ∈ blocks, ∃ pragmas, b = b'.withPragmas pragmas := by
  obtain ⟨⟨b', i⟩, hi, rfl⟩ := List.mem_map.mp hb
  exact ⟨b', List.mem_of_getElem? (List.mk_mem_zipIdx_iff_getElem?.mp hi), _, rfl⟩

/-- Every fragment of an outline is a fragment of the file. -/
theorem file_eq_of_mem_deposits {p : Deposit} (hp : p ∈ (d.outline path).deposits path) :
    p.2.file = path := by
  obtain ⟨b, hb, rfl⟩ := List.mem_map.mp hp
  obtain ⟨b', hb', pragmas, rfl⟩ := exists_of_mem_attachPragmas hb
  show b'.fragment.file = path
  rcases List.mem_append.mp hb' with hb' | hb'
  · exact Definition.file_of_mem_blocksAll path d.comments [] false d.definitions b' hb'
  · rw [List.mem_singleton] at hb'
    rw [hb']
    rfl

/-- The node of a package, or the root of an isolated file, is called as the file declares it. -/
theorem label_topAddress (path : SourcePath) (d : Document) :
    ((d.outline path).topAddress path).label = nodeName (d.packagePath.getLast?.getD "") := by
  have hpath : (d.outline path).packagePath = d.packagePath := rfl
  unfold Outline.topAddress
  rw [hpath]
  cases d.packagePath with
  | nil => rfl
  | cons x names =>
    show (Address.origin.down ((x :: names).map nodeName)).label = _
    rw [Address.label_down, List.getLast?_map]
    simp [List.getLast?_cons]

/-- A fragment is deposited where nodes of its declared name stand. -/
theorem label_eq_of_mem_deposits {p : Deposit} (hp : p ∈ (d.outline path).deposits path) :
    p.1.label = nodeName p.2.declaredName := by
  obtain ⟨b, hb, rfl⟩ := List.mem_map.mp hp
  obtain ⟨b', hb', pragmas, rfl⟩ := exists_of_mem_attachPragmas hb
  rw [Block.address, Address.label_down, List.getLast?_map]
  show (b'.path.getLast?.map nodeName).getD _ = nodeName b'.fragment.declaredName
  rcases List.mem_append.mp hb' with hb' | hb'
  · rw [Definition.getLast?_path_of_mem_blocksAll path d.comments [] false d.definitions b' hb']
    rfl
  -- the block of the file itself stands at the top
  · rw [List.mem_singleton] at hb'
    rw [hb']
    exact label_topAddress path d

/-- The whole file has a block of its own. -/
theorem exists_block_of_file (path : SourcePath) (d : Document) :
    ∃ b ∈ (d.outline path).blocks, b.path = [] := by
  have hblock := List.mem_append_right
    (Definition.blocksAll path d.comments [] false d.definitions)
    (List.mem_singleton_self (⟨[], Fragment.ofDocument path d⟩ : Block))
  obtain ⟨pragmas, hb⟩ := exists_mem_attachPragmas (homes _ d.pragmas) hblock
  exact ⟨_, hb, rfl⟩

/-- A mention stands where some block stands. -/
theorem exists_block_of_mention {m : ScopedMention} (hm : m ∈ (d.outline path).mentions) :
    ∃ b ∈ (d.outline path).blocks, b.path = m.1 := by
  rcases Definition.exists_block_of_mem_mentionsAll path d.comments [] [] false d.definitions m hm
    with hpath | ⟨b, hb, hpath⟩
  · rw [hpath]
    exact exists_block_of_file path d
  · have hblock := List.mem_append_left [⟨[], Fragment.ofDocument path d⟩] hb
    obtain ⟨pragmas, hb'⟩ := exists_mem_attachPragmas (homes _ d.pragmas) hblock
    exact ⟨_, hb', hpath⟩

/-- Whatever address a file comes to, something is deposited there or below. -/
theorem exists_deposit_of_mem_visited {a : Address} (ha : a ∈ (d.outline path).visited path) :
    ∃ p ∈ (d.outline path).deposits path, a ≤ p.1 := by
  rcases mem_visited_iff.mp ha with ha | ⟨b, hb, ha⟩
  -- above the top address it is the file's own block that counts
  · obtain ⟨b, hb, hpath⟩ := exists_block_of_file path d
    refine ⟨_, List.mem_map.mpr ⟨b, hb, rfl⟩, ?_⟩
    rw [Block.address, hpath]
    exact le_topAddress_of_mem_opening ha
  · exact ⟨_, List.mem_map.mpr ⟨b, hb, rfl⟩, (Address.mem_steps_iff.mp ha).2⟩

end Document

end SemanticIndex
