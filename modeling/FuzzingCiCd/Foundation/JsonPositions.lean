import FuzzingCiCd.Foundation.Json

/-!
# Positions in a JSON tree

All positions of a tree in document order, each with the value at it. A set of *hidden* keys splits
them: the *frontier* are the values right under a hidden key, what is *outside* has no hidden key
above it, and what is left lies below the frontier.

`mask` replaces the frontier. Two trees have the same mask exactly when they have the same outside,
with the shape of every value there (`mask_eq_mask_iff`), and masking keeps the outside, so that
masking again changes nothing.

## Main results

* `outside_mask`, `frontier_mask`: what masking keeps, and what it overwrites.
* `mask_mask`: masking again changes nothing.
* `mask_eq_mask_iff`: two trees are masked alike exactly when they have the same outside.
-/

namespace Json

/-- One step down: to the value of a key or to an item. -/
inductive Step where
  | key (k : String)
  | index (i : ℕ)
  deriving DecidableEq

abbrev Position := List Step

/-- An entry of a value, seen from one step further up. -/
def within (s : Step) (entry : Position × Json) : Position × Json := (s :: entry.1, entry.2)

mutual

/-- All positions in document order, each with its value. -/
def positions : Json → List (Position × Json)
  | .obj fields => ([], .obj fields) :: fieldPositions fields
  | .arr items => ([], .arr items) :: itemPositions 0 items
  | node => [([], node)]

def fieldPositions : JsonMap → List (Position × Json)
  | [] => []
  | (k, value) :: fields => (positions value).map (within (.key k)) ++ fieldPositions fields

def itemPositions (i : ℕ) : List Json → List (Position × Json)
  | [] => []
  | item :: items => (positions item).map (within (.index i)) ++ itemPositions (i + 1) items

end

/-- The value without what is in it: the keys of an object, the length of an array. -/
def shape : Json → Json
  | .obj fields => .obj (fields.map fun field ↦ (field.1, .null))
  | .arr items => .arr (items.map fun _ ↦ .null)
  | node => node

/-- The text of a position, after the text of its start. -/
def Position.render (start : String) : Position → String
  | [] => start
  | .key k :: p => Position.render (start ++ "." ++ k) p
  | .index i :: p => Position.render (start ++ "[" ++ toString i ++ "]") p

section Hidden

variable (hidden : String → Bool)

def Step.hides : Step → Bool
  | .key k => hidden k
  | .index _ => false

/-- There is no hidden key above the position. -/
def Position.isOutside (p : Position) : Bool := p.all fun s ↦ !s.hides hidden

/-- The position is right under a hidden key, the only one above it. -/
def Position.isFrontier : Position → Bool
  | [] => false
  | s :: p => if s.hides hidden then p.isEmpty else Position.isFrontier p

/-- What is outside: the shapes of the values there. -/
def outside (node : Json) : List (Position × Json) :=
  ((positions node).filter fun entry ↦ entry.1.isOutside hidden).map
    fun entry ↦ (entry.1, entry.2.shape)

/-- The hidden values, where they are topmost. -/
def frontier (node : Json) : List (Position × Json) :=
  (positions node).filter fun entry ↦ entry.1.isFrontier hidden

end Hidden

/-! ## Recursion over fields and items -/

section Recursion

variable {hidden : String → Bool}

/-- The root comes first, and nothing else is at the root. -/
theorem positions_eq_cons (node : Json) :
    ∃ inner, positions node = ([], node) :: inner ∧ ∀ entry ∈ inner, entry.1 ≠ [] := by
  have hfields : ∀ fields, ∀ entry ∈ fieldPositions fields, entry.1 ≠ [] := by
    intro fields
    induction fields with
    | nil => simp [fieldPositions]
    | cons field fields ih =>
      obtain ⟨k, value⟩ := field
      intro entry hentry
      rw [fieldPositions, List.mem_append, List.mem_map] at hentry
      rcases hentry with ⟨inner, -, rfl⟩ | hentry
      · exact List.cons_ne_nil _ _
      · exact ih entry hentry
  have hitems : ∀ items i, ∀ entry ∈ itemPositions i items, entry.1 ≠ [] := by
    intro items
    induction items with
    | nil => simp [itemPositions]
    | cons item items ih =>
      intro i entry hentry
      rw [itemPositions, List.mem_append, List.mem_map] at hentry
      rcases hentry with ⟨inner, -, rfl⟩ | hentry
      · exact List.cons_ne_nil _ _
      · exact ih (i + 1) entry hentry
  cases node with
  | obj fields => exact ⟨_, by rw [positions], hfields fields⟩
  | arr items => exact ⟨_, by rw [positions], hitems items 0⟩
  | _ => exact ⟨[], by simp [positions], by simp⟩

/-- The frontier among the fields. -/
def fieldFrontier (hidden : String → Bool) (fields : JsonMap) : List (Position × Json) :=
  (fieldPositions fields).filter fun entry ↦ entry.1.isFrontier hidden

/-- The frontier among the items, counted from some index. -/
def itemFrontier (hidden : String → Bool) (i : ℕ) (items : List Json) : List (Position × Json) :=
  (itemPositions i items).filter fun entry ↦ entry.1.isFrontier hidden

theorem frontier_obj (fields : JsonMap) :
    frontier hidden (.obj fields) = fieldFrontier hidden fields := by
  rw [frontier, positions, List.filter_cons_of_neg Bool.false_ne_true, fieldFrontier]

theorem frontier_arr (items : List Json) :
    frontier hidden (.arr items) = itemFrontier hidden 0 items := by
  rw [frontier, positions, List.filter_cons_of_neg Bool.false_ne_true, itemFrontier]

theorem fieldFrontier_cons (k : String) (value : Json) (fields : JsonMap) :
    fieldFrontier hidden ((k, value) :: fields) =
      (if hidden k then [([.key k], value)] else (frontier hidden value).map (within (.key k))) ++
        fieldFrontier hidden fields := by
  rw [fieldFrontier, fieldPositions, List.filter_append, List.filter_map, fieldFrontier]
  congr 1
  by_cases hk : hidden k = true
  · -- of the value under a hidden key only the root is at the frontier
    obtain ⟨inner, heq, hinner⟩ := positions_eq_cons value
    rw [if_pos hk, heq, List.filter_cons_of_pos (by simp
      [within, Position.isFrontier, Step.hides, hk]),
      List.filter_eq_nil_iff.mpr, List.map_cons, List.map_nil]
    · rfl
    · intro entry hentry
      simp [within, Position.isFrontier, Step.hides, hk, hinner entry hentry]
  · rw [if_neg hk, frontier]
    congr 2
    funext entry
    simp [within, Position.isFrontier, Step.hides, hk]

theorem itemFrontier_cons (i : ℕ) (item : Json) (items : List Json) :
    itemFrontier hidden i (item :: items) =
      (frontier hidden item).map (within (.index i)) ++ itemFrontier hidden (i + 1) items := by
  rw [itemFrontier, itemPositions, List.filter_append, List.filter_map, itemFrontier]
  rfl

/-- The outside among the fields. -/
def fieldOutside (hidden : String → Bool) (fields : JsonMap) : List (Position × Json) :=
  ((fieldPositions fields).filter fun entry ↦ entry.1.isOutside hidden).map
    fun entry ↦ (entry.1, entry.2.shape)

/-- The outside among the items, counted from some index. -/
def itemOutside (hidden : String → Bool) (i : ℕ) (items : List Json) : List (Position × Json) :=
  ((itemPositions i items).filter fun entry ↦ entry.1.isOutside hidden).map
    fun entry ↦ (entry.1, entry.2.shape)

theorem outside_obj (fields : JsonMap) : outside hidden (.obj fields) =
    ([], shape (.obj fields)) :: fieldOutside hidden fields := by
  rw [outside, positions, List.filter_cons_of_pos rfl, fieldOutside, List.map_cons]

theorem outside_arr (items : List Json) : outside hidden (.arr items) =
    ([], shape (.arr items)) :: itemOutside hidden 0 items := by
  rw [outside, positions, List.filter_cons_of_pos rfl, itemOutside, List.map_cons]

theorem fieldOutside_cons (k : String) (value : Json) (fields : JsonMap) :
    fieldOutside hidden ((k, value) :: fields) =
      (if hidden k then [] else (outside hidden value).map (within (.key k))) ++
        fieldOutside hidden fields := by
  rw [fieldOutside, fieldPositions, List.filter_append, List.filter_map, List.map_append,
    fieldOutside]
  congr 1
  by_cases hk : hidden k = true
  · rw [if_pos hk, List.filter_eq_nil_iff.mpr, List.map_nil, List.map_nil]
    intro entry hentry
    simp [within, Position.isOutside, Step.hides, hk]
  · have hsame : ((fun entry : Position × Json ↦ entry.1.isOutside hidden) ∘ within (.key k)) =
        fun entry ↦ entry.1.isOutside hidden := by
      funext entry
      simp [within, Position.isOutside, Step.hides, hk]
    rw [if_neg hk, hsame, outside, List.map_map, List.map_map]
    rfl

theorem itemOutside_cons (i : ℕ) (item : Json) (items : List Json) :
    itemOutside hidden i (item :: items) =
      (outside hidden item).map (within (.index i)) ++ itemOutside hidden (i + 1) items := by
  rw [itemOutside, itemPositions, List.filter_append, List.filter_map, List.map_append,
    itemOutside, outside, List.map_map, List.map_map]
  rfl

end Recursion

/-! ## Masking -/

mutual

/-- The tree with another value everywhere at the frontier. -/
def mask (hidden : String → Bool) (replacement : Json) : Json → Json
  | .obj fields => .obj (maskFields hidden replacement fields)
  | .arr items => .arr (maskItems hidden replacement items)
  | node => node

def maskFields (hidden : String → Bool) (replacement : Json) : JsonMap → JsonMap
  | [] => []
  | (k, value) :: fields =>
    (k, if hidden k then replacement else mask hidden replacement value) ::
      maskFields hidden replacement fields

def maskItems (hidden : String → Bool) (replacement : Json) : List Json → List Json
  | [] => []
  | item :: items => mask hidden replacement item :: maskItems hidden replacement items

end

section Masking

variable {hidden : String → Bool} {replacement : Json}

theorem keys_maskFields (fields : JsonMap) :
    (maskFields hidden replacement fields).map Prod.fst = fields.map Prod.fst := by
  induction fields with
  | nil => rw [maskFields]
  | cons field fields ih =>
    obtain ⟨k, value⟩ := field
    rw [maskFields, List.map_cons, List.map_cons, ih]

theorem length_maskItems (items : List Json) :
    (maskItems hidden replacement items).length = items.length := by
  induction items with
  | nil => rw [maskItems]
  | cons item items ih => rw [maskItems, List.length_cons, List.length_cons, ih]

theorem shape_obj_eq_iff {fields fields' : JsonMap} :
    shape (.obj fields) = shape (.obj fields') ↔ fields.map Prod.fst = fields'.map Prod.fst := by
  have hkeys : ∀ fields : JsonMap, (fields.map fun field ↦ (field.1, Json.null)) =
      (fields.map Prod.fst).map fun k ↦ (k, Json.null) := fun fields ↦ by
    rw [List.map_map]
    rfl
  rw [shape, shape, obj.injEq, hkeys, hkeys]
  exact (List.map_injective_iff.mpr fun k l h ↦ (Prod.mk.inj h).1).eq_iff

theorem shape_arr_eq_iff {items items' : List Json} :
    shape (.arr items) = shape (.arr items') ↔ items.length = items'.length := by
  rw [shape, shape, arr.injEq, List.map_const', List.map_const', List.replicate_left_inj]

mutual

/-- **Masking keeps the outside.** -/
theorem outside_mask : ∀ node : Json,
    outside hidden (mask hidden replacement node) = outside hidden node
  | .null | .bool _ | .num _ | .str _ => by rw [mask] <;> simp
  | .arr items => by
    rw [mask, outside_arr, outside_arr, itemOutside_mask 0 items,
      shape_arr_eq_iff.mpr (length_maskItems items)]
  | .obj fields => by
    rw [mask, outside_obj, outside_obj, fieldOutside_mask fields,
      shape_obj_eq_iff.mpr (keys_maskFields fields)]

theorem fieldOutside_mask : ∀ fields : JsonMap,
    fieldOutside hidden (maskFields hidden replacement fields) = fieldOutside hidden fields
  | [] => by rw [maskFields]
  | (k, value) :: fields => by
    rw [maskFields, fieldOutside_cons, fieldOutside_cons, fieldOutside_mask fields]
    by_cases hk : hidden k = true
    · rw [if_pos hk, if_pos hk]
    · rw [if_neg hk, if_neg hk, if_neg hk, outside_mask value]

theorem itemOutside_mask : ∀ (i : ℕ) (items : List Json),
    itemOutside hidden i (maskItems hidden replacement items) = itemOutside hidden i items
  | _, [] => by rw [maskItems]
  | i, item :: items => by
    rw [maskItems, itemOutside_cons, itemOutside_cons, outside_mask item,
      itemOutside_mask (i + 1) items]

end

mutual

/-- **The frontier after masking** is the frontier, with the replacement everywhere. -/
theorem frontier_mask : ∀ node : Json, frontier hidden (mask hidden replacement node) =
    (frontier hidden node).map fun entry ↦ (entry.1, replacement)
  | .null | .bool _ | .num _ | .str _ => by rw [mask] <;> simp
    [frontier, positions, Position.isFrontier]
  | .arr items => by rw [mask, frontier_arr, frontier_arr, itemFrontier_mask 0 items]
  | .obj fields => by rw [mask, frontier_obj, frontier_obj, fieldFrontier_mask fields]

theorem fieldFrontier_mask : ∀ fields : JsonMap,
    fieldFrontier hidden (maskFields hidden replacement fields) =
      (fieldFrontier hidden fields).map fun entry ↦ (entry.1, replacement)
  | [] => by rw [maskFields, fieldFrontier, fieldPositions, List.filter_nil, List.map_nil]
  | (k, value) :: fields => by
    rw [maskFields, fieldFrontier_cons, fieldFrontier_cons, fieldFrontier_mask fields,
      List.map_append]
    by_cases hk : hidden k = true
    · rw [if_pos hk, if_pos hk, if_pos hk, List.map_cons, List.map_nil]
    · rw [if_neg hk, if_neg hk, if_neg hk, frontier_mask value, List.map_map, List.map_map]
      rfl

theorem itemFrontier_mask : ∀ (i : ℕ) (items : List Json),
    itemFrontier hidden i (maskItems hidden replacement items) =
      (itemFrontier hidden i items).map fun entry ↦ (entry.1, replacement)
  | _, [] => by rw [maskItems, itemFrontier, itemPositions, List.filter_nil, List.map_nil]
  | i, item :: items => by
    rw [maskItems, itemFrontier_cons, itemFrontier_cons, frontier_mask item,
      itemFrontier_mask (i + 1) items, List.map_append, List.map_map, List.map_map]
    rfl

end

/-! ## Trees with the same outside

The outside of a tree is the list of its positions that are not below a hidden one, with the
shapes there. It determines the masked tree: the entries of a field end where those of the next
one begin, which is where a position of length one stands, so that the list can be taken apart
along the tree. -/

/-- The outside begins with the root, and nothing else in it is at the root. -/
theorem outside_eq_cons (node : Json) :
    ∃ inner, outside hidden node = ([], node.shape) :: inner ∧ ∀ entry ∈ inner, entry.1 ≠ [] := by
  obtain ⟨inner, heq, hinner⟩ := positions_eq_cons node
  rw [outside, heq, List.filter_cons_of_pos rfl, List.map_cons]
  refine ⟨_, rfl, fun entry hentry ↦ ?_⟩
  obtain ⟨x, hx, rfl⟩ := List.mem_map.mp hentry
  exact hinner x (List.mem_filter.mp hx).1

/-- Two lists agree in the parts before and from the first entry that fails a test. -/
theorem append_inj_of_boundary {α : Type*} {p : α → Bool} {xs xs' ys ys' : List α}
    (hxs : ∀ x ∈ xs, p x = true) (hxs' : ∀ x ∈ xs', p x = true)
    (hys : ∀ y ∈ ys.head?, p y = false) (hys' : ∀ y ∈ ys'.head?, p y = false)
    (h : xs ++ ys = xs' ++ ys') : xs = xs' ∧ ys = ys' := by
  have htake : ∀ {xs ys : List α}, (∀ x ∈ xs, p x = true) → (∀ y ∈ ys.head?, p y = false) →
      (xs ++ ys).takeWhile p = xs := by
    intro xs ys hxs hys
    rw [List.takeWhile_append_of_pos hxs]
    rcases ys with _ | ⟨y, ys⟩
    · rw [List.takeWhile_nil, List.append_nil]
    · rw [List.takeWhile_cons_of_neg (by rw [hys y rfl]; exact Bool.false_ne_true),
        List.append_nil]
  have hsame : xs = xs' := by rw [← htake hxs hys, h, htake hxs' hys']
  exact ⟨hsame, List.append_cancel_left (hsame ▸ h)⟩

theorem within_injective (s : Step) : Function.Injective (within s) := by
  rintro ⟨p, v⟩ ⟨q, w⟩ h
  obtain ⟨hpath, hvalue⟩ := Prod.mk.inj h
  exact Prod.ext (List.cons.inj hpath).2 hvalue

/-- What belongs to the first field or item ends where the next one begins. -/
theorem outside_split {s : Step} {v w : Json} {rest rest' : List (Position × Json)}
    (hrest : ∀ entry ∈ rest.head?, entry.1.length = 1)
    (hrest' : ∀ entry ∈ rest'.head?, entry.1.length = 1)
    (h : (outside hidden v).map (within s) ++ rest = (outside hidden w).map (within s) ++ rest') :
    outside hidden v = outside hidden w ∧ rest = rest' := by
  obtain ⟨inner, hv, hinner⟩ := @outside_eq_cons hidden v
  obtain ⟨inner', hw, hinner'⟩ := @outside_eq_cons hidden w
  have hdeep : ∀ {inner : List (Position × Json)}, (∀ entry ∈ inner, entry.1 ≠ []) →
      ∀ x ∈ inner.map (within s), decide (2 ≤ x.1.length) = true := by
    intro inner hinner x hx
    obtain ⟨entry, hentry, rfl⟩ := List.mem_map.mp hx
    have hpos := List.length_pos_iff.mpr (hinner entry hentry)
    rw [decide_eq_true_iff, within, List.length_cons]
    omega
  have hshallow : ∀ {rest : List (Position × Json)}, (∀ entry ∈ rest.head?, entry.1.length = 1) →
      ∀ y ∈ rest.head?, decide (2 ≤ y.1.length) = false := by
    intro rest hrest y hy
    rw [decide_eq_false_iff_not, hrest y hy]
    omega
  rw [hv, hw, List.map_cons, List.map_cons, List.cons_append, List.cons_append] at h
  obtain ⟨hroot, htail⟩ := List.cons.inj h
  obtain ⟨hsame, hafter⟩ := append_inj_of_boundary (hdeep hinner) (hdeep hinner')
    (hshallow hrest) (hshallow hrest') htail
  rw [hv, hw, within_injective s hroot, (List.map_injective_iff.mpr (within_injective s)) hsame]
  exact ⟨rfl, hafter⟩

theorem length_head_fieldOutside (fields : JsonMap) :
    ∀ entry ∈ (fieldOutside hidden fields).head?, entry.1.length = 1 := by
  induction fields with
  | nil => intro entry hentry; cases hentry
  | cons field fields ih =>
    obtain ⟨k, value⟩ := field
    rw [fieldOutside_cons]
    by_cases hk : hidden k = true
    · rw [if_pos hk, List.nil_append]
      exact ih
    · obtain ⟨inner, heq, -⟩ := @outside_eq_cons hidden value
      rw [if_neg hk, heq]
      intro entry hentry
      rw [← Option.some.inj hentry]
      rfl

theorem length_head_itemOutside (i : ℕ) (items : List Json) :
    ∀ entry ∈ (itemOutside hidden i items).head?, entry.1.length = 1 := by
  rcases items with _ | ⟨item, items⟩
  · intro entry hentry
    cases hentry
  · obtain ⟨inner, heq, -⟩ := @outside_eq_cons hidden item
    rw [itemOutside_cons, heq]
    intro entry hentry
    rw [← Option.some.inj hentry]
    rfl

theorem shape_eq_of_outside_eq {a b : Json} (h : outside hidden a = outside hidden b) :
    shape a = shape b := by
  obtain ⟨inner, ha, -⟩ := @outside_eq_cons hidden a
  obtain ⟨inner', hb, -⟩ := @outside_eq_cons hidden b
  rw [ha, hb] at h
  exact (Prod.mk.inj (List.cons.inj h).1).2

mutual

theorem mask_eq_of_outside_eq : ∀ {a b : Json}, outside hidden a = outside hidden b →
    mask hidden replacement a = mask hidden replacement b
  | .null, b, h | .bool _, b, h | .num _, b, h | .str _, b, h => by
    have hshape := shape_eq_of_outside_eq h
    cases b <;> simp_all [shape]
  | .arr items, b, h => by
    have hshape := shape_eq_of_outside_eq h
    cases b with
    | arr items' =>
      rw [outside_arr, outside_arr] at h
      rw [mask, mask, maskItems_eq (shape_arr_eq_iff.mp hshape) (List.cons.inj h).2]
    | _ => simp [shape] at hshape
  | .obj fields, b, h => by
    have hshape := shape_eq_of_outside_eq h
    cases b with
    | obj fields' =>
      rw [outside_obj, outside_obj] at h
      rw [mask, mask, maskFields_eq (shape_obj_eq_iff.mp hshape) (List.cons.inj h).2]
    | _ => simp [shape] at hshape

theorem maskFields_eq : ∀ {fields fields' : JsonMap},
    fields.map Prod.fst = fields'.map Prod.fst →
      fieldOutside hidden fields = fieldOutside hidden fields' →
        maskFields hidden replacement fields = maskFields hidden replacement fields'
  | [], fields', hkeys, _ => by
    rw [List.map_eq_nil_iff.mp hkeys.symm]
  | (k, value) :: fields, fields', hkeys, h => by
    rcases fields' with _ | ⟨⟨k', value'⟩, fields'⟩
    · cases hkeys
    obtain ⟨hk', hrest⟩ := List.cons.inj hkeys
    dsimp only at hk'
    rw [← hk', fieldOutside_cons, fieldOutside_cons] at h
    rw [← hk']
    rw [maskFields, maskFields]
    by_cases hk : hidden k = true
    · rw [if_pos hk, if_pos hk, List.nil_append, List.nil_append] at h
      rw [if_pos hk, if_pos hk, maskFields_eq hrest h]
    · rw [if_neg hk, if_neg hk] at h
      obtain ⟨hvalue, hfields⟩ := outside_split (length_head_fieldOutside _)
        (length_head_fieldOutside _) h
      rw [if_neg hk, if_neg hk, mask_eq_of_outside_eq hvalue, maskFields_eq hrest hfields]

theorem maskItems_eq : ∀ {i : ℕ} {items items' : List Json}, items.length = items'.length →
    itemOutside hidden i items = itemOutside hidden i items' →
      maskItems hidden replacement items = maskItems hidden replacement items'
  | _, [], items', hlength, _ => by
    rw [List.length_eq_zero_iff.mp hlength.symm]
  | i, item :: items, items', hlength, h => by
    rcases items' with _ | ⟨item', items'⟩
    · cases hlength
    rw [itemOutside_cons, itemOutside_cons] at h
    obtain ⟨hitem, hitems⟩ := outside_split (length_head_itemOutside _ _)
      (length_head_itemOutside _ _) h
    rw [maskItems, maskItems, mask_eq_of_outside_eq hitem,
      maskItems_eq (Nat.succ.inj hlength) hitems]

end

/-- **Masks see the outside only.** -/
theorem mask_eq_mask_iff {a b : Json} :
    mask hidden replacement a = mask hidden replacement b ↔
      outside hidden a = outside hidden b := by
  constructor
  · intro h
    rw [← @outside_mask _ replacement a, h, outside_mask]
  · exact mask_eq_of_outside_eq

/-- Masking again changes nothing. -/
theorem mask_mask (node : Json) :
    mask hidden replacement (mask hidden replacement node) = mask hidden replacement node :=
  mask_eq_mask_iff.mpr (outside_mask node)

end Masking

end Json
