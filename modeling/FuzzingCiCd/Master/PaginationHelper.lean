import FuzzingCiCd.Foundation.Doubles
import Mathlib.Data.List.Flatten

/-!
# Pages of a list

`PaginationHelper.paginate` cuts a page out of a list. The position of the page is a product of two
ints that come from the request.

A page holds the items from `page * size` to `(page + 1) * size`, and pages of one size make up the
list. The code does its arithmetic in 32 bits: `exact_iff` says for which numbers it cuts out that
page.

## Main results

* `flatMap_pageOf`: the pages of one size make up the list.
* `hasNext_iff`: the flag for a next page is right, but for the last page that an int can name.
* `exact_iff`, `pages_exact_iff`: where the arithmetic of the code gives the page that is meant.
-/

namespace FuzzingCiCd.Master

/-! ## Lists and responses -/

/-- A list whose length is an int. -/
structure Source (α : Type*) where
  items : List α
  fits : items.length < 2 ^ 31

/-- What `subList` throws at bounds that do not fit the list. -/
inductive RangeException where
  | fromIndex (fromIndex : Int32)
  | toIndex (toIndex : Int32)
  | order (fromIndex toIndex : Int32)

/-- What is told about a page besides its items. -/
structure PageInfoResponse where
  page : Int32
  size : Int32
  totalItems : Int64
  totalPages : Int32
  hasNext : Bool

/-- A page as it is answered. -/
structure PageResponse (α : Type*) where
  items : List α
  pageInfo : PageInfoResponse

namespace Source

variable {α : Type*} (source : Source α)

def size : Int32 := Int32.ofInt source.items.length

/-- `List.of()`. -/
def empty : Source α := ⟨[], Nat.two_pow_pos 31⟩

def subList (fromIndex toIndex : Int32) : Except RangeException (List α) :=
  if fromIndex < 0 then .error (.fromIndex fromIndex)
  else if source.size < toIndex then .error (.toIndex toIndex)
  else if toIndex < fromIndex then .error (.order fromIndex toIndex)
  else .ok ((source.items.take toIndex.toInt.toNat).drop fromIndex.toInt.toNat)

end Source

namespace PaginationHelper

def DEFAULT_SIZE : Int32 := 50

def MAX_SIZE : Int32 := 500

variable {α : Type*}

/-- `Math.min`. -/
def min (a b : Int32) : Int32 := if a ≤ b then a else b

def normalizePage : Option Int32 → Int32
  | none => 0
  | some page => if page < 0 then 0 else page

def normalizeSize (size : Option Int32) (defaultSize maxSize : Int32) : Int32 :=
  match size with
  | none => defaultSize
  | some size => if size ≤ 0 then defaultSize else min size maxSize

/-- `(int) Math.ceil((double) totalItems / effectiveSize)`. -/
def totalPages (totalItems : Int64) (effectiveSize : Int32) : Int32 :=
  if effectiveSize = 0 then 0
  else
    let quotient := (Double.ofRat totalItems.toInt).div (Double.ofRat effectiveSize.toInt)
    Int32.ofInt (quotient.ceil.narrow Int32.minValue.toInt Int32.maxValue.toInt)

/-- `paginate` behind the normalisation of the page and its size. -/
def slicePage (safeSource : Source α) (effectivePage effectiveSize : Int32) :
    Except RangeException (PageResponse α) :=
  let totalItems := Int64.ofInt safeSource.size.toInt
  let fromIndex := min (effectivePage * effectiveSize) safeSource.size
  let toIndex := min (fromIndex + effectiveSize) safeSource.size
  (safeSource.subList fromIndex toIndex).map fun items ↦
    let totalPages := totalPages totalItems effectiveSize
    let hasNext := decide (effectivePage + 1 < totalPages)
    ⟨items, ⟨effectivePage, effectiveSize, totalItems, totalPages, hasNext⟩⟩

/-- `paginate` with a default and a maximum. The source may be `null`. -/
def paginate (source : Option (Source α)) (page size : Option Int32)
    (defaultSize maxSize : Int32) : Except RangeException (PageResponse α) :=
  let safeSource := source.getD .empty
  if page = none ∧ size = none then
    let totalItems := Int64.ofInt safeSource.size.toInt
    let effectiveSize := safeSource.size
    let totalPages := if safeSource.items.isEmpty then 0 else 1
    .ok ⟨safeSource.items, ⟨0, effectiveSize, totalItems, totalPages, false⟩⟩
  else slicePage safeSource (normalizePage page) (normalizeSize size defaultSize maxSize)

/-- `paginate` with the default and the maximum of the class. -/
def paginateDefault (source : Option (Source α)) (page size : Option Int32) :
    Except RangeException (PageResponse α) :=
  paginate source page size DEFAULT_SIZE MAX_SIZE

/-! ## Pages -/

/-- A page of a list, with its position in unbounded integers. -/
def pageOf (page size : ℤ) (items : List α) : List α :=
  (items.take ((page + 1) * size).toNat).drop (page * size).toNat

theorem pageOf_ne_nil_iff {page size : ℤ} {items : List α} (hpage : 0 ≤ page) (hsize : 0 ≤ size) :
    pageOf page size items ≠ [] ↔ 0 < size ∧ page * size < items.length := by
  have hstart : 0 ≤ page * size := mul_nonneg hpage hsize
  have hend : (page + 1) * size = page * size + size := by ring
  rw [pageOf, ← List.length_pos_iff, List.length_drop, List.length_take, hend]
  omega

/-- **Nothing is lost and nothing is repeated.** -/
theorem flatMap_pageOf (size : ℤ) (items : List α) (hsize : 0 ≤ size) (n : ℕ) :
    (List.range n).flatMap (fun page : ℕ ↦ pageOf page size items) =
      items.take (n * size).toNat := by
  induction n with
  | zero => simp
  | succ n ih =>
    have hstart : 0 ≤ (n : ℤ) * size := mul_nonneg (Int.natCast_nonneg n) hsize
    have hend : ((n + 1 : ℕ) : ℤ) * size = n * size + size := by
      push_cast
      ring
    have hsplit : items.take (n * size + size).toNat =
        items.take (n * size).toNat ++ pageOf n size items := by
      have hle : (n * size).toNat ≤ (n * size + size).toNat := by omega
      have htake := (List.take_append_drop (n * size).toNat
        (items.take (n * size + size).toNat)).symm
      rw [List.take_take, Nat.min_eq_left hle] at htake
      rw [htake, pageOf, add_mul, one_mul]
    rw [List.range_succ, List.flatMap_append, ih, List.flatMap_singleton, hend, hsplit]

/-! ## The arithmetic of the code -/

theorem toInt_min (a b : Int32) : (min a b).toInt = Min.min a.toInt b.toInt := by
  rw [min]
  split_ifs with h
  · rw [Int32.le_iff_toInt_le] at h
    omega
  · rw [Int32.not_le, Int32.lt_iff_toInt_lt] at h
    omega

theorem toInt_size (source : Source α) : source.size.toInt = source.items.length :=
  Int32.toInt_ofInt_of_le (le_trans (by decide) (Int.natCast_nonneg _))
    (by exact_mod_cast source.fits)

theorem subList_eq_ok_iff {source : Source α} {fromIndex toIndex : Int32} {items : List α} :
    source.subList fromIndex toIndex = .ok items ↔
      (0 ≤ fromIndex.toInt ∧ toIndex.toInt ≤ source.items.length ∧
        fromIndex.toInt ≤ toIndex.toInt) ∧
      items = (source.items.take toIndex.toInt.toNat).drop fromIndex.toInt.toNat := by
  have hzero : (0 : Int32).toInt = 0 := rfl
  rw [Source.subList]
  simp only [Int32.lt_iff_toInt_lt, toInt_size, hzero]
  split_ifs with hfrom hto horder
  · exact ⟨nofun, fun h ↦ absurd hfrom (by omega)⟩
  · exact ⟨nofun, fun h ↦ absurd hto (by omega)⟩
  · exact ⟨nofun, fun h ↦ absurd horder (by omega)⟩
  · refine ⟨fun h ↦ ⟨⟨by omega, by omega, by omega⟩, (Except.ok.inj h).symm⟩, fun h ↦ ?_⟩
    rw [h.2]

theorem toInt_totalPages {n : ℕ} {size : Int32} (hn : n < 2 ^ 31) (hsize : 0 < size.toInt) :
    (totalPages (Int64.ofInt n) size).toInt = ⌈(n : ℚ) / size.toInt⌉ := by
  have hne : size ≠ 0 := by
    rintro rfl
    exact absurd hsize (by decide)
  have hlt := size.toInt_lt
  obtain ⟨s, hs⟩ := Int.eq_ofNat_of_zero_le hsize.le
  rw [hs] at hsize hlt
  have hlong : (Int64.ofInt n).toInt = (n : ℤ) :=
    Int64.toInt_ofInt_of_le (by omega) (by omega)
  have hceil := @Double.ceil_div n s (by omega) (by omega) (by omega)
  have hle := @Doubles.ceil_div_le n s (by omega)
  have hnonneg : 0 ≤ ⌈(n : ℚ) / s⌉ := Int.ceil_nonneg (by positivity)
  rw [totalPages, if_neg hne, hlong, hs]
  dsimp only
  push_cast
  rw [hceil, Double.narrow_intCast, Int32.toInt_ofInt_of_le]
  · omega
  · omega
  · exact le_trans (by decide) hnonneg
  · exact hle.trans (by change (n : ℤ) ≤ 2147483647; omega)

/-! ## When the page is the one that is meant

The product of page and size, the end of the cut and the number of pages are computed with 32
bits, and each of them can be cut off. `Fits` says when this does not matter for the list at
hand; the cut and the flag for a next page are looked at separately and are both right under it
only. -/

/-- **The page that is meant.** It is returned, and it has a next one exactly if a later page has
items. -/
def Exact (source : Option (Source α)) (page size : Option Int32) (defaultSize maxSize : Int32) :
    Prop :=
  let items := (source.getD .empty).items
  let p := (normalizePage page).toInt
  let s := (normalizeSize size defaultSize maxSize).toInt
  ∃ response, paginate source page size defaultSize maxSize = .ok response ∧
    response.items = pageOf p s items ∧
    (response.pageInfo.hasNext = true ↔ ∃ q, p < q ∧ pageOf q s items ≠ [])

/-- The numbers of a page fit into 32 bits, or what is cut off them does not matter: with it and
without it the page begins behind the list. -/
structure Fits (length : ℕ) (page size : Int32) : Prop where
  size_nonneg : 0 ≤ size.toInt
  page_lt : page.toInt < 2 ^ 31 - 1
  start_nonneg : 0 ≤ (page * size).toInt
  start_eq : page.toInt * size.toInt < 2 ^ 31 ∨ (length : ℤ) ≤ (page * size).toInt
  stop_lt : Min.min (page * size).toInt length + size.toInt < 2 ^ 31

theorem zero_le_normalizePage (page : Option Int32) : 0 ≤ (normalizePage page).toInt := by
  rcases page with _ | page
  · exact le_rfl
  rw [normalizePage]
  split_ifs with h
  · exact le_rfl
  · rw [Int32.not_lt, Int32.le_iff_toInt_le] at h
    exact h

theorem toInt_mul_of_lt {page size : Int32} (hpage : 0 ≤ page.toInt) (hsize : 0 ≤ size.toInt)
    (h : page.toInt * size.toInt < 2 ^ 31) : (page * size).toInt = page.toInt * size.toInt := by
  have hnonneg : 0 ≤ page.toInt * size.toInt := mul_nonneg hpage hsize
  rw [Int32.toInt_mul, Int.bmod_eq_of_le (by omega) (by omega)]

theorem toInt_add_or {index size : Int32} (hindex : 0 ≤ index.toInt) :
    (index + size).toInt = index.toInt + size.toInt ∨
      (2 ^ 31 ≤ index.toInt + size.toInt ∧ (index + size).toInt < 0) := by
  have hlt := index.toInt_lt
  have hlt' := size.toInt_lt
  have hle := size.le_toInt
  rw [Int32.toInt_add]
  by_cases h : index.toInt + size.toInt < 2 ^ 31
  · exact Or.inl (Int.bmod_eq_of_le (by omega) (by omega))
  · have hmod : (index.toInt + size.toInt).bmod (2 ^ 32) = index.toInt + size.toInt - 2 ^ 32 := by
      rw [← Int.sub_bmod_right]
      exact Int.bmod_eq_of_le (by omega) (by omega)
    exact Or.inr ⟨by omega, by omega⟩

theorem take_min_length (stop : ℤ) (items : List α) :
    items.take (Min.min stop items.length).toNat = items.take stop.toNat := by
  rw [List.take_eq_take_iff]
  omega

section Page

variable {source : Source α} {page size : Int32} {response : PageResponse α}

/-- The response for the items that are cut out. -/
def responseOf (source : Source α) (page size : Int32) (items : List α) : PageResponse α :=
  let totalPages := totalPages (Int64.ofInt source.items.length) size
  ⟨items, ⟨page, size, Int64.ofInt source.items.length, totalPages,
    decide (page + 1 < totalPages)⟩⟩

theorem slicePage_eq_ok_iff : slicePage source page size = .ok response ↔
    (0 ≤ size.toInt ∧ 0 ≤ (page * size).toInt ∧
      Min.min (page * size).toInt source.items.length + size.toInt < 2 ^ 31) ∧
    response = responseOf source page size
      ((source.items.take (Min.min (page * size).toInt source.items.length + size.toInt).toNat).drop
        (Min.min (page * size).toInt source.items.length).toNat) := by
  have hsub : slicePage source page size =
      (source.subList (min (page * size) source.size)
        (min (min (page * size) source.size + size) source.size)).map
        (responseOf source page size) := by
    rw [slicePage, toInt_size]
    rfl
  have hfrom : (min (page * size) source.size).toInt =
      Min.min (page * size).toInt source.items.length := by rw [toInt_min, toInt_size]
  have hlt := size.toInt_lt
  rw [hsub, ← hfrom]
  generalize min (page * size) source.size = index at hfrom ⊢
  -- the sum is exact, or below zero and then no bound of a part of the list
  have hstop : (min (index + size) source.size).toInt =
      Min.min (index + size).toInt source.items.length := by rw [toInt_min, toInt_size]
  constructor
  · intro h
    rcases hitems : source.subList index (min (index + size) source.size) with e | items
    · rw [hitems] at h
      cases h
    rw [hitems] at h
    obtain rfl := Except.ok.inj h
    obtain ⟨⟨hindex, -, horder⟩, rfl⟩ := subList_eq_ok_iff.mp hitems
    rw [hstop] at horder ⊢
    rcases @toInt_add_or index size hindex with hadd | ⟨-, hneg⟩
    · have hbound := (index + size).toInt_lt
      refine ⟨⟨by omega, by omega, by omega⟩, ?_⟩
      rw [hadd, take_min_length]
    · omega
  · rintro ⟨⟨hsize, hstart, hbound⟩, rfl⟩
    have hindex : 0 ≤ index.toInt := by omega
    have hadd : (index + size).toInt = index.toInt + size.toInt := by
      rcases @toInt_add_or index size hindex with hadd | ⟨hover, -⟩
      · exact hadd
      · omega
    rw [subList_eq_ok_iff.mpr ⟨⟨hindex, by omega, by omega⟩, rfl⟩, hstop, hadd, take_min_length]
    rfl

theorem exists_page_iff (hpage : 0 ≤ page.toInt) (hsize : 0 ≤ size.toInt) :
    (∃ q, page.toInt < q ∧ pageOf q size.toInt source.items ≠ []) ↔
      0 < size.toInt ∧ (page.toInt + 1) * size.toInt < source.items.length := by
  constructor
  · rintro ⟨q, hq, hne⟩
    rw [pageOf_ne_nil_iff (by omega) hsize] at hne
    exact ⟨hne.1, (mul_le_mul_of_nonneg_right hq hsize).trans_lt hne.2⟩
  · intro h
    refine ⟨page.toInt + 1, by omega, ?_⟩
    rwa [pageOf_ne_nil_iff (by omega) hsize]

theorem totalPages_nonneg (hsize : 0 ≤ size.toInt) :
    0 ≤ (totalPages (Int64.ofInt source.items.length) size).toInt := by
  rcases hsize.eq_or_lt with hzero | hpos
  · obtain rfl : size = 0 := Int32.toInt_inj.mp hzero.symm
    exact le_rfl
  · rw [toInt_totalPages source.fits hpos]
    exact Int.ceil_nonneg (by positivity)

/-- **The next page.** The flag is right for every page but the last that an int can name. -/
theorem hasNext_iff (hpage : 0 ≤ page.toInt) (hsize : 0 ≤ size.toInt) :
    (page + 1 < totalPages (Int64.ofInt source.items.length) size ↔
      ∃ q, page.toInt < q ∧ pageOf q size.toInt source.items ≠ []) ↔ page.toInt < 2 ^ 31 - 1 := by
  have hlt := page.toInt_lt
  have hone : (1 : Int32).toInt = 1 := rfl
  have hnonneg := @totalPages_nonneg _ source size hsize
  rw [exists_page_iff hpage hsize, Int32.lt_iff_toInt_lt]
  by_cases hlast : page.toInt < 2 ^ 31 - 1
  · refine iff_of_true ?_ hlast
    rw [Int32.toInt_add, hone, Int.bmod_eq_of_le (by omega) (by omega)]
    rcases hsize.eq_or_lt with hzero | hpos
    · obtain rfl : size = 0 := Int32.toInt_inj.mp hzero.symm
      have htotal : (totalPages (Int64.ofInt source.items.length) 0).toInt = 0 := rfl
      rw [htotal]
      exact iff_of_false (by omega) (by omega)
    · have hpos' : (0 : ℚ) < size.toInt := Int.cast_pos.mpr hpos
      rw [toInt_totalPages source.fits hpos, Int.lt_ceil, lt_div_iff₀ hpos', and_iff_right hpos]
      exact_mod_cast Iff.rfl
  · -- the next page has a number below zero, and no page has items there
    refine iff_of_false (fun h ↦ ?_) hlast
    have hpage' : page.toInt = 2147483647 := by omega
    obtain ⟨hpos, hmul⟩ := h.mp (by
      rw [Int32.toInt_add, hone, hpage']
      exact lt_of_lt_of_le (by decide) hnonneg)
    have hfits := source.fits
    rw [hpage'] at hmul
    omega

/-- What is cut out is the page, unless the position is cut off before the end of the list. -/
theorem cut_eq_pageOf_iff (hpage : 0 ≤ page.toInt) (hsize : 0 ≤ size.toInt)
    (hstart : 0 ≤ (page * size).toInt) :
    (source.items.take
        (Min.min (page * size).toInt source.items.length + size.toInt).toNat).drop
          (Min.min (page * size).toInt source.items.length).toNat =
        pageOf page.toInt size.toInt source.items ↔
      page.toInt * size.toInt < 2 ^ 31 ∨ (source.items.length : ℤ) ≤ (page * size).toInt := by
  have hfits := source.fits
  have hend : (page.toInt + 1) * size.toInt = page.toInt * size.toInt + size.toInt := by ring
  rw [pageOf, hend]
  by_cases hexact : page.toInt * size.toInt < 2 ^ 31
  · refine iff_of_true ?_ (Or.inl hexact)
    rw [toInt_mul_of_lt hpage hsize hexact] at hstart ⊢
    rcases le_total (page.toInt * size.toInt) source.items.length with hle | hle
    · rw [min_eq_left hle]
    · rw [min_eq_right hle, List.drop_eq_nil_of_le (by rw [List.length_take]; omega),
        List.drop_eq_nil_of_le (by rw [List.length_take]; omega)]
  · have hpos : 0 < size.toInt := by
      refine hsize.lt_of_ne fun hzero ↦ hexact ?_
      rw [← hzero, mul_zero]
      decide
    have hnil : (source.items.take (page.toInt * size.toInt + size.toInt).toNat).drop
        (page.toInt * size.toInt).toNat = [] :=
      List.drop_eq_nil_of_le (by rw [List.length_take]; omega)
    rw [hnil, List.drop_eq_nil_iff, List.length_take, or_iff_right hexact]
    omega

end Page

/-- **When a page is the one that is meant.** -/
theorem exact_iff (source : Option (Source α)) (page size : Option Int32)
    (defaultSize maxSize : Int32) (hgiven : page ≠ none ∨ size ≠ none) :
    Exact source page size defaultSize maxSize ↔
      Fits (source.getD .empty).items.length (normalizePage page)
        (normalizeSize size defaultSize maxSize) := by
  have hpage := zero_le_normalizePage page
  have hslice : paginate source page size defaultSize maxSize =
      slicePage (source.getD .empty) (normalizePage page)
        (normalizeSize size defaultSize maxSize) :=
    if_neg fun h ↦ hgiven.elim (· h.1) (· h.2)
  rw [Exact, hslice]
  generalize source.getD .empty = source
  generalize normalizePage page = page at hpage ⊢
  generalize normalizeSize size defaultSize maxSize = size
  constructor
  · rintro ⟨response, hresponse, hitems, hnext⟩
    obtain ⟨⟨hsize, hstart, hstop⟩, rfl⟩ := slicePage_eq_ok_iff.mp hresponse
    rw [responseOf, decide_eq_true_iff] at hnext
    exact ⟨hsize, (hasNext_iff hpage hsize).mp hnext, hstart,
      (cut_eq_pageOf_iff hpage hsize hstart).mp hitems, hstop⟩
  · rintro ⟨hsize, hlast, hstart, hexact, hstop⟩
    refine ⟨_, slicePage_eq_ok_iff.mpr ⟨⟨hsize, hstart, hstop⟩, rfl⟩,
      (cut_eq_pageOf_iff hpage hsize hstart).mpr hexact, ?_⟩
    rw [responseOf, decide_eq_true_iff]
    exact (hasNext_iff hpage hsize).mpr hlast

/-- The items of one of the pages `0, 1, 2, …`. -/
def itemsAt (source : Option (Source α)) (size : Option Int32) (defaultSize maxSize : Int32)
    (page : ℕ) : List α :=
  match paginate source (some (Int32.ofInt page)) size defaultSize maxSize with
  | .ok response => response.items
  | .error _ => []

theorem itemsAt_eq {source : Option (Source α)} {size : Option Int32} {defaultSize maxSize : Int32}
    {page : ℕ} (hpage : page < 2 ^ 31)
    (h : Exact source (some (Int32.ofInt page)) size defaultSize maxSize) :
    itemsAt source size defaultSize maxSize page =
      pageOf page (normalizeSize size defaultSize maxSize).toInt (source.getD .empty).items := by
  have hint : (Int32.ofInt page).toInt = page :=
    Int32.toInt_ofInt_of_le (le_trans (by decide) (Int.natCast_nonneg _)) (by exact_mod_cast hpage)
  have hnormal : (normalizePage (some (Int32.ofInt page))).toInt = page := by
    rw [normalizePage, if_neg, hint]
    rw [Int32.not_lt, Int32.le_iff_toInt_le, hint]
    exact Int.natCast_nonneg _
  obtain ⟨response, hresponse, hitems, -⟩ := h
  rw [itemsAt, hresponse, ← hnormal]
  exact hitems

/-- **Pages.** When a page is the one that is meant, and that the pages `0, 1, 2, …` of one size
make up the list if each of them is. -/
theorem pages_exact_iff (source : Option (Source α)) (page size : Option Int32)
    (defaultSize maxSize : Int32) (hgiven : page ≠ none ∨ size ≠ none) :
    (Exact source page size defaultSize maxSize ↔
      Fits (source.getD .empty).items.length (normalizePage page)
        (normalizeSize size defaultSize maxSize)) ∧
    ∀ n : ℕ, n ≤ 2 ^ 31 →
      ((source.getD .empty).items.length : ℤ) ≤
        n * (normalizeSize size defaultSize maxSize).toInt →
      (∀ q < n, Exact source (some (Int32.ofInt q)) size defaultSize maxSize) →
      (List.range n).flatMap (itemsAt source size defaultSize maxSize) =
        (source.getD .empty).items := by
  refine ⟨exact_iff source page size defaultSize maxSize hgiven, fun n hn hlength hpages ↦ ?_⟩
  have hitems : (List.range n).flatMap (itemsAt source size defaultSize maxSize) =
      (List.range n).flatMap fun q : ℕ ↦
        pageOf q (normalizeSize size defaultSize maxSize).toInt (source.getD .empty).items := by
    refine List.flatMap_congr fun q hq ↦ ?_
    have hlt := List.mem_range.mp hq
    exact itemsAt_eq (hlt.trans_le hn) (hpages q hlt)
  rcases Nat.eq_zero_or_pos n with rfl | hpos
  · have hnil : (source.getD .empty).items = [] := List.length_eq_zero_iff.mp (by omega)
    rw [hnil]
    rfl
  · have hfits := (exact_iff source (some (Int32.ofInt (0 : ℕ))) size defaultSize maxSize
      (Or.inl (Option.some_ne_none _))).mp (hpages 0 hpos)
    have hsize := hfits.size_nonneg
    rw [hitems, flatMap_pageOf _ _ hsize, List.take_of_length_le (by omega)]

/-- The second of three pages of five items. -/
theorem pages_exact_second :
    Exact (some ⟨[1, 2, 3, 4, 5], by decide⟩) (some 1) (some 2) DEFAULT_SIZE MAX_SIZE :=
  (pages_exact_iff (some ⟨[1, 2, 3, 4, 5], by decide⟩) (some 1) (some 2) DEFAULT_SIZE MAX_SIZE
    (Or.inl (Option.some_ne_none _))).1.mpr
      ⟨by decide, by decide, by decide, by decide, by decide⟩

/-- The product of a page of five million and a size of five hundred is below zero in 32 bits. -/
theorem not_exact_page : ¬ ∀ (source : Option (Source ℕ)) (page size : Option Int32),
    page ≠ none ∨ size ≠ none → Exact source page size DEFAULT_SIZE MAX_SIZE := by
  intro h
  have hgiven : some (5000000 : Int32) ≠ none ∨ some (500 : Int32) ≠ none :=
    Or.inl (Option.some_ne_none _)
  have hfits := (exact_iff _ _ _ _ _ hgiven).mp
    (h (some ⟨[1, 2, 3, 4, 5], by decide⟩) (some 5000000) (some 500) hgiven)
  exact absurd hfits.start_nonneg (by decide)

end PaginationHelper

end FuzzingCiCd.Master
