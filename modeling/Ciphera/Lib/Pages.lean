import Mathlib.Data.List.DropRight

/-!
# Pages of a listing

A client asks for one page after another, each time with the cursor that came with the
last page, until a page is empty.  If every page is the part of the listing that its
cursor points at, the pages together are the listing.
-/

namespace Ciphera.Lib

universe u v w

variable {α : Type u} {κ : Type v} {ε : Type w} {fetch : Option κ → Except ε (List α × Option κ)}

/-- The pages that are fetched from a cursor on, up to an empty page. -/
inductive Follows (fetch : Option κ → Except ε (List α × Option κ)) :
    Option κ → List (List α) → Prop
  | stop {cursor next : Option κ} : fetch cursor = .ok ([], next) → Follows fetch cursor []
  | page {cursor : Option κ} {following : κ} {items : List α} {pages : List (List α)} :
      fetch cursor = .ok (items, some following) → items ≠ [] →
      Follows fetch (some following) pages → Follows fetch cursor (items :: pages)

namespace Follows

/-- Where each cursor has a place in the listing and gets the page that starts there, the
pages are the rest of the listing. -/
theorem exists_of_places {listing : List α} {limit : Nat} (positive : 0 < limit)
    {place : Option κ → Nat → Prop}
    (fetched : ∀ cursor count, place cursor count → ∃ next,
      fetch cursor = .ok ((listing.drop count).take limit, next) ∧
        (listing.drop count ≠ [] → ∃ following, next = some following ∧
          place (some following) (count + limit)))
    {cursor : Option κ} {count : Nat} (placed : place cursor count) :
    ∃ pages, Follows fetch cursor pages ∧ pages.flatten = listing.drop count ∧
      ∀ page ∈ pages, page.length ≤ limit := by
  -- The rest of the listing gets shorter with every page.
  induction lengthEq : (listing.drop count).length using Nat.strong_induction_on
    generalizing cursor count with
  | _ length ih =>
      rcases fetched cursor count placed with ⟨next, page, advances⟩
      by_cases finished : listing.drop count = []
      · rw [finished, List.take_nil] at page
        exact ⟨[], .stop page, finished.symm, fun _ mem => absurd mem List.not_mem_nil⟩
      · rcases advances finished with ⟨following, rfl, placedNext⟩
        have shorter : (listing.drop (count + limit)).length < length := by
          have nonempty := List.length_pos_of_ne_nil finished
          rw [← lengthEq, List.length_drop, List.length_drop]
          rw [List.length_drop] at nonempty
          omega
        rcases ih _ shorter placedNext rfl with ⟨pages, follows, flattenEq, short⟩
        have notEmpty : (listing.drop count).take limit ≠ [] := by
          rw [Ne, List.take_eq_nil_iff, not_or]
          exact ⟨positive.ne', finished⟩
        refine ⟨_ :: pages, .page page notEmpty follows, ?_, ?_⟩
        · rw [List.flatten_cons, flattenEq, ← List.drop_drop, List.take_append_drop]
        · intro other mem
          rcases List.mem_cons.mp mem with rfl | rest
          · exact List.length_take_le limit _
          · exact short other rest

end Follows

/-! ## Parts of a sorted listing -/

section Parts

variable {listing first second : List α} {count : Nat} {wanted : α → Bool}

/-- The second part of a listing is wanted. -/
theorem filter_append_eq_right (before : ∀ item ∈ first, wanted item = false)
    (after : ∀ item ∈ second, wanted item = true) : (first ++ second).filter wanted = second := by
  have dropped : ∀ item ∈ first, ¬wanted item = true := by
    intro item mem
    rw [before item mem]
    exact Bool.false_ne_true
  rw [List.filter_append, List.filter_eq_nil_iff.mpr dropped, List.filter_eq_self.mpr after,
    List.nil_append]

/-- The first part of a listing is wanted. -/
theorem filter_append_eq_left (before : ∀ item ∈ first, wanted item = true)
    (after : ∀ item ∈ second, wanted item = false) : (first ++ second).filter wanted = first := by
  have dropped : ∀ item ∈ second, ¬wanted item = true := by
    intro item mem
    rw [after item mem]
    exact Bool.false_ne_true
  rw [List.filter_append, List.filter_eq_nil_iff.mpr dropped, List.filter_eq_self.mpr before,
    List.append_nil]

/-- The part of a listing from a place on. -/
theorem filter_eq_drop (before : ∀ item ∈ listing.take count, wanted item = false)
    (after : ∀ item ∈ listing.drop count, wanted item = true) :
    listing.filter wanted = listing.drop count := by
  have split := filter_append_eq_right before after
  rwa [List.take_append_drop] at split

/-- What comes after the last item of a page is what follows the page. -/
theorem filter_precedes_eq_drop {precedes : α → α → Bool}
    (sorted : listing.Pairwise fun first second => precedes first second = true)
    (asymmetric : ∀ first second, precedes first second = true → precedes second first = false)
    {last : α} (lastEq : (listing.take count).getLast? = some last) :
    listing.filter (precedes last) = listing.drop count := by
  rcases List.getLast?_eq_some_iff.mp lastEq with ⟨init, takeEq⟩
  have ordered := sorted
  rw [← List.take_append_drop count listing, List.pairwise_append, takeEq,
    List.pairwise_append] at ordered
  rcases ordered with ⟨⟨_, _, initBefore⟩, _, pageBefore⟩
  have lastMem : last ∈ init ++ [last] := List.mem_append_right init List.mem_cons_self
  apply filter_eq_drop
  · intro item mem
    rw [takeEq] at mem
    rcases List.mem_append.mp mem with inInit | isLast
    · exact asymmetric item last (initBefore item inInit last List.mem_cons_self)
    · rw [List.mem_singleton.mp isLast]
      by_contra related
      exact related (asymmetric last last (Bool.not_eq_false _ ▸ related))
  · exact fun item mem => pageBefore last lastMem item mem

/-- The last item of a page that is not empty is the last one up to its end. -/
theorem getLast?_take_add {limit : Nat} {last : α}
    (lastEq : ((listing.drop count).take limit).getLast? = some last) :
    (listing.take (count + limit)).getLast? = some last := by
  rw [List.take_add, List.getLast?_append, lastEq, Option.some_or]

/-- The last item of a listing is among the last ones. -/
theorem mem_rtake_concat {limit : Nat} (positive : 0 < limit) (init : List α) (last : α) :
    last ∈ (init ++ [last]).rtake limit := by
  cases limit with
  | zero => exact absurd positive (Nat.lt_irrefl 0)
  | succ limit =>
      rw [List.rtake_concat_succ]
      exact List.mem_append_right _ List.mem_cons_self

/-- The start of a longer listing is the end of a listing of different items only if the
listing fits exactly, or fits and nothing follows it. -/
theorem take_append_eq_rtake_iff {limit : Nat} (positive : 0 < limit) (distinct : listing.Nodup)
    (rest : List α) :
    (listing ++ rest).take limit = listing.rtake limit ↔
      listing.length = limit ∨ listing.length < limit ∧ rest = [] := by
  rcases Nat.lt_trichotomy listing.length limit with short | exact_ | long
  · have whole : listing.rtake limit = listing := by
      rw [List.rtake, Nat.sub_eq_zero_of_le (Nat.le_of_lt short), List.drop_zero]
    rw [whole, List.take_append, List.take_of_length_le (Nat.le_of_lt short),
      List.append_right_eq_self, List.take_eq_nil_iff, or_iff_right (Nat.sub_ne_zero_of_lt short)]
    exact ⟨fun empty => .inr ⟨short, empty⟩,
      fun fits => (fits.resolve_left (Nat.ne_of_lt short)).2⟩
  · rw [List.take_append, ← exact_, Nat.sub_self, List.take_zero, List.append_nil,
      List.take_length, List.rtake, Nat.sub_self]
    exact iff_of_true rfl (.inl rfl)
  · apply iff_of_false
    · intro same
      -- The first item of the page would occur again further on.
      have firstEq : (listing ++ rest).take limit = listing.take limit :=
        List.take_append_of_le_length (Nat.le_of_lt long)
      have inTake : listing[0]? = listing[listing.length - limit]? := by
        have heads := congrArg (·[0]?) same
        simpa [firstEq, List.rtake, positive] using heads
      have nonempty : 0 < listing.length := Nat.lt_trans positive long
      have indexEq := (List.getElem?_inj nonempty distinct).mp inTake
      omega
    · rintro (same | ⟨short, _⟩)
      · exact Nat.lt_irrefl _ (same ▸ long)
      · exact Nat.lt_asymm short long

end Parts

/-! ## Listings of groups -/

section Groups

variable {β : Type w} {groups : List β} {items : β → List α}

/-- Groups without items add nothing to the listing. -/
theorem flatMap_filter {wanted : β → Bool}
    (empty : ∀ group, wanted group = false → items group = []) (groups : List β) :
    (groups.filter wanted).flatMap items = groups.flatMap items := by
  induction groups with
  | nil => rfl
  | cons group groups ih =>
      rw [List.filter_cons]
      split_ifs with kept
      · rw [List.flatMap_cons, List.flatMap_cons, ih]
      · rw [List.flatMap_cons, ih, empty group (Bool.not_eq_true _ ▸ kept), List.nil_append]

theorem map_rtake (items : β → α) (groups : List β) (count : Nat) :
    (groups.map items).rtake count = (groups.rtake count).map items := by
  rw [List.rtake_eq_reverse_take_reverse, List.rtake_eq_reverse_take_reverse, ← List.map_reverse,
    ← List.map_take, List.map_reverse]

/-- As many groups as items are wanted are enough. -/
theorem take_flatMap_take (notEmpty : ∀ group ∈ groups, items group ≠ []) {count limit : Nat}
    (le : count ≤ limit) :
    ((groups.take limit).flatMap items).take count = (groups.flatMap items).take count := by
  induction groups generalizing count limit with
  | nil => rw [List.take_nil]
  | cons group groups ih =>
      have positive := List.length_pos_of_ne_nil (notEmpty group List.mem_cons_self)
      have rest := fun other mem => notEmpty other (List.mem_cons_of_mem group mem)
      cases limit with
      | zero =>
          obtain rfl := Nat.le_zero.mp le
          rw [List.take_zero, List.take_zero]
      | succ limit =>
          have fewer : count - (items group).length ≤ limit := by omega
          rw [List.take_succ_cons, List.flatMap_cons, List.flatMap_cons, List.take_append,
            List.take_append, ih rest fewer]

/-- The same at the other end. -/
theorem rtake_flatMap_rtake (notEmpty : ∀ group ∈ groups, items group ≠ []) (limit : Nat) :
    ((groups.rtake limit).flatMap items).rtake limit = (groups.flatMap items).rtake limit := by
  have reversed : ∀ group ∈ groups.reverse, (List.reverse ∘ items) group ≠ [] := by
    intro group mem empty
    exact notEmpty group (List.mem_reverse.mp mem) (List.reverse_eq_nil_iff.mp empty)
  rw [List.rtake_eq_reverse_take_reverse, List.rtake_eq_reverse_take_reverse,
    List.rtake_eq_reverse_take_reverse, List.reverse_flatMap, List.reverse_reverse,
    List.reverse_flatMap, take_flatMap_take reversed (Nat.le_refl limit)]

/-- An item of the listing lies in a group, at a place in it. -/
theorem exists_of_flatMap_eq {init rest : List α} {item : α}
    (split : groups.flatMap items = init ++ item :: rest) :
    ∃ before group after place, groups = before ++ group :: after ∧
      (items group)[place]? = some item ∧
      init = before.flatMap items ++ (items group).take place ∧
      rest = (items group).drop (place + 1) ++ after.flatMap items := by
  induction groups generalizing init with
  | nil => exact absurd split.symm (List.append_ne_nil_of_right_ne_nil init (List.cons_ne_nil _ _))
  | cons group groups ih =>
      rw [List.flatMap_cons] at split
      rcases List.append_eq_append_iff.mp split with
        ⟨more, initEq, groupsEq⟩ | ⟨more, groupEq, restEq⟩
      · -- The item comes after the group.
        rcases ih groupsEq with ⟨before, found, after, place, rfl, at_, beforeEq, afterEq⟩
        refine ⟨group :: before, found, after, place, rfl, at_, ?_, afterEq⟩
        rw [initEq, beforeEq, List.flatMap_cons, List.append_assoc]
      · cases more with
        | nil =>
            -- The item is the first of a later group.
            rw [List.append_nil] at groupEq
            rw [List.nil_append] at restEq
            have groupsEq : groups.flatMap items = [] ++ item :: rest := restEq.symm
            rcases ih groupsEq with ⟨before, found, after, place, rfl, at_, beforeEq, afterEq⟩
            refine ⟨group :: before, found, after, place, rfl, at_, ?_, afterEq⟩
            rw [List.flatMap_cons, List.append_assoc, ← beforeEq, List.append_nil, groupEq]
        | cons first more =>
            rw [List.cons_append] at restEq
            rcases List.cons.inj restEq with ⟨rfl, rfl⟩
            refine ⟨[], group, groups, init.length, rfl, ?_, ?_, ?_⟩
            · rw [groupEq, List.getElem?_append_right (Nat.le_refl _), Nat.sub_self]
              rfl
            · rw [groupEq, List.take_left]
              rfl
            · rw [groupEq, ← List.drop_drop, List.drop_left]
              rfl

end Groups

end Ciphera.Lib
