import Mathlib.Data.List.Forall2
import Mathlib.Data.List.Induction
import Mathlib.Data.List.Shortlex
import Recognizer.Discovery
import Recognizer.Machine

/-!
# The order of discovery

A search lists each item when it is first seen. Which item comes first can be
said without the search: write down the starts, all that one step leads to from
them, all that one step leads to from that, and so on, with every repetition
(`layers`). What the search lists are the first occurrences in that list
(`discover_eq_fresh_layers`), because leaving a repeated item out of a layer
leaves out only successors that its first occurrence has already brought.

Where the steps are those of a machine the list with repetitions is itself the
image of another one, which has none. The words over the alphabet, each
extended by all symbols in turn, make up layers of their own; they are sorted
by **shortlex** (`Precedes`), a shorter word before a longer one and words of
one length by the first symbol in which they differ. Walking them in that order
gives the layers of the positions. So a position is discovered at the first
word that leads to it, and positions are listed in the order of their least
words (`exists_leastWords_discover`).
-/

namespace Recognizer

/-! ## Layers with repetitions -/

section Layers

variable {α β : Type}

/-- **Some items, what one step leads to from them, and so on**, up to a number
of steps. Items are listed as often as steps lead to them. -/
def layers (next : α → List α) : Nat → List α → List α
  | 0, xs => xs
  | bound + 1, xs => xs ++ layers next bound (xs.flatMap next)

/-- What steps do not leave they do not leave after several. -/
theorem forall_mem_layers {next : α → List α} {P : α → Prop}
    (hP : ∀ x, P x → ∀ y ∈ next x, P y) {bound : Nat} {xs : List α}
    (hxs : ∀ x ∈ xs, P x) : ∀ x ∈ layers next bound xs, P x := by
  induction bound generalizing xs with
  | zero => exact hxs
  | succ bound ih =>
    intro x hx
    rcases List.mem_append.mp hx with hx | hx
    · exact hxs x hx
    · refine ih (fun y hy => ?_) x hx
      obtain ⟨z, hz, hy⟩ := List.mem_flatMap.mp hy
      exact hP z (hxs z hz) y hy

/-- **Layers are mapped item by item** to the layers of the images, if the
successors of an item are mapped to those of its image, and to none where it
has no image. -/
theorem filterMap_layers {extend : β → List β} {next : α → List α}
    {f : β → Option α}
    (h : ∀ b, (extend b).filterMap f = (f b).toList.flatMap next) (bound : Nat)
    (bs : List β) :
    (layers extend bound bs).filterMap f
      = layers next bound (bs.filterMap f) := by
  have hlayer : ∀ bs : List β, (bs.flatMap extend).filterMap f
      = (bs.filterMap f).flatMap next := by
    intro bs
    induction bs with
    | nil => rfl
    | cons b bs ih =>
      rw [List.flatMap_cons, List.filterMap_append, h, ih, List.filterMap_cons]
      cases f b <;> simp
  induction bound generalizing bs with
  | zero => rfl
  | succ bound ih => rw [layers, layers, List.filterMap_append, ih, hlayer]

end Layers

/-! ## First occurrences -/

section Fresh

variable {α : Type} [LinearOrd α]

/-- First occurrences depend only on which items were seen. -/
theorem fresh_congr {seen seen' : OrdSet α} (h : ∀ x, x ∈ seen ↔ x ∈ seen')
    (xs : List α) : fresh seen xs = fresh seen' xs :=
  congrArg (fresh · xs) (Std.ExtTreeSet.ext_mem fun {x} => h x)

/-- Items that were all seen have no first occurrences. -/
theorem fresh_eq_nil_iff {seen : OrdSet α} {xs : List α} :
    fresh seen xs = [] ↔ ∀ x ∈ xs, x ∈ seen := by
  rw [List.eq_nil_iff_forall_not_mem]
  refine forall_congr' fun x => ?_
  rw [mem_fresh, not_and, Decidable.not_not]

/-- Items of a first list were seen when a second one is gone through. -/
theorem fresh_append (seen : OrdSet α) (xs ys : List α) :
    fresh seen (xs ++ ys)
      = fresh seen xs ++ fresh (seen ∪ OrdSet.ofList xs) ys := by
  induction xs generalizing seen with
  | nil => exact fresh_congr (by simp [Std.ExtTreeSet.mem_union_iff]) ys
  | cons x xs ih =>
    have hseen : ∀ y, y ∈ seen.insert x ∪ OrdSet.ofList xs ↔
        y ∈ seen ∪ OrdSet.ofList (x :: xs) := fun y => by
      simp only [Std.ExtTreeSet.mem_union_iff, OrdSet.mem_insert,
        OrdSet.mem_ofList, List.mem_cons]
      rw [or_assoc, or_left_comm]
    rw [List.cons_append, fresh, fresh]
    by_cases hx : x ∈ seen
    · have hinsert : ∀ y, y ∈ seen ↔ y ∈ seen.insert x := fun y => by
        rw [OrdSet.mem_insert]
        exact ⟨Or.inr, fun h => h.elim (fun e => e ▸ hx) id⟩
      rw [if_pos hx, if_pos hx, ih]
      refine congrArg _ (fresh_congr (fun y => ?_) ys)
      rw [← hseen, Std.ExtTreeSet.mem_union_iff, Std.ExtTreeSet.mem_union_iff,
        hinsert]
    · rw [if_neg hx, if_neg hx, ih, fresh_congr hseen]
      rfl

/-- **Repetitions bring nothing new.** The successors of first occurrences have
the first occurrences among the successors of all, as long as the successors of
what was seen before are seen now. -/
theorem fresh_flatMap_fresh {next : α → List α} {before : OrdSet α}
    {seen : OrdSet α} (h : ∀ x ∈ before, ∀ y ∈ next x, y ∈ seen)
    (xs : List α) :
    fresh seen ((fresh before xs).flatMap next)
      = fresh seen (xs.flatMap next) := by
  induction xs generalizing before seen with
  | nil => rfl
  | cons x xs ih =>
    rw [List.flatMap_cons, fresh_append, fresh]
    split
    · next hx =>
      -- `x` is repeated, and its successors are known
      have hnil : fresh seen (next x) = [] := fresh_eq_nil_iff.mpr (h x hx)
      rw [hnil, List.nil_append, ih h]
      refine fresh_congr (fun y => ?_) _
      rw [Std.ExtTreeSet.mem_union_iff, OrdSet.mem_ofList]
      exact ⟨Or.inl, fun hy => hy.elim id (h x hx y)⟩
    · rw [List.flatMap_cons, fresh_append, ih fun y hy z hz => ?_]
      rw [Std.ExtTreeSet.mem_union_iff, OrdSet.mem_ofList]
      rcases OrdSet.mem_insert.mp hy with rfl | hy
      · exact Or.inr hz
      · exact Or.inl (h y hy z hz)

/-- **A search from a layer on** lists the first occurrences in the layers with
repetitions. -/
theorem explore_eq_fresh_layers {next : α → List α} {bound : Nat}
    {before seen : OrdSet α} {xs : List α}
    (hseen : ∀ x, x ∈ seen ↔ x ∈ before ∨ x ∈ xs)
    (hbefore : ∀ x ∈ before, ∀ y ∈ next x, y ∈ seen) :
    explore next bound seen (fresh before xs)
      = fresh before (layers next bound xs) := by
  induction bound generalizing before seen xs with
  | zero => rfl
  | succ bound ih =>
    have hseen' : ∀ x, x ∈ before ∪ OrdSet.ofList xs ↔ x ∈ seen := fun x => by
      rw [hseen, Std.ExtTreeSet.mem_union_iff, OrdSet.mem_ofList]
    rw [explore, layers, fresh_append, fresh_congr hseen',
      fresh_flatMap_fresh hbefore]
    split
    · next hnil =>
      -- nothing new in the next layer, so nothing new in any
      rw [fresh_eq_nil_iff] at hnil
      have hclosed : ∀ x, x ∈ seen → ∀ y ∈ next x, y ∈ seen := by
        intro x hx y hy
        rcases (hseen x).mp hx with hx | hx
        · exact hbefore x hx y hy
        · exact hnil y (List.mem_flatMap.mpr ⟨x, hx, hy⟩)
      rw [fresh_eq_nil_iff.mpr (forall_mem_layers hclosed hnil),
        List.append_nil]
    · next y ys hys =>
      rw [← hys, ih (fun x => ?_) fun x hx y hy => ?_]
      · rw [Std.ExtTreeSet.mem_union_iff, OrdSet.mem_ofList, mem_fresh]
        by_cases hx : x ∈ seen <;> simp [hx]
      · rw [Std.ExtTreeSet.mem_union_iff, OrdSet.mem_ofList, mem_fresh]
        rcases (hseen x).mp hx with hx | hx
        · exact Or.inl (hbefore x hx y hy)
        · by_cases hy' : y ∈ seen
          · exact Or.inl hy'
          · exact Or.inr ⟨List.mem_flatMap.mpr ⟨x, hx, hy⟩, hy'⟩

/-- **The order of discovery** is that of the first occurrences in the layers
with repetitions. -/
theorem discover_eq_fresh_layers (bound : Nat) (next : α → List α)
    (starts : List α) :
    discover bound next starts = fresh ∅ (layers next bound starts) :=
  explore_eq_fresh_layers (by simp) (by simp)

/-- **The first thing that has a certain image**, in a list sorted by `r`. -/
structure IsFirst {β : Type} (r : β → β → Prop) (f : β → Option α)
    (bs : List β) (c : β) (x : α) : Prop where
  mem : c ∈ bs
  image_eq : f c = some x
  eq_or_rel : ∀ b ∈ bs, f b = some x → b = c ∨ r c b

section IsFirst

variable {β : Type} {r : β → β → Prop} {f : β → Option α} {bs : List β}
  {b c : β} {x : α}

omit [LinearOrd α] in
/-- What is first stays first behind a thing with another image. -/
theorem IsFirst.cons (h : IsFirst r f bs c x) (hb : f b ≠ some x) :
    IsFirst r f (b :: bs) c x where
  mem := List.mem_cons_of_mem _ h.mem
  image_eq := h.image_eq
  eq_or_rel d hd hfd := by
    rcases List.mem_cons.mp hd with rfl | hd
    · exact absurd hfd hb
    · exact h.eq_or_rel d hd hfd

omit [LinearOrd α] in
/-- The head of a sorted list is the first thing with its image. -/
theorem isFirst_cons_self (hb : ∀ c ∈ bs, r b c) (hfb : f b = some x) :
    IsFirst r f (b :: bs) b x where
  mem := List.mem_cons_self
  image_eq := hfb
  eq_or_rel d hd _ := (List.mem_cons.mp hd).imp_right (hb d)

/-- **An item is listed at the first thing it is the image of.** The items that
occur first among the images of a sorted list belong, in their order, to a part
of that list, each to the first thing it is the image of. -/
theorem exists_sublist_fresh_filterMap (hbs : bs.Pairwise r)
    (seen : OrdSet α) :
    ∃ cs, cs.Sublist bs ∧
      List.Forall₂ (fun c x => x ∉ seen ∧ IsFirst r f bs c x) cs
        (fresh seen (bs.filterMap f)) := by
  induction bs generalizing seen with
  | nil => exact ⟨[], .refl _, .nil⟩
  | cons b bs ih =>
    obtain ⟨hb, hbs⟩ := List.pairwise_cons.mp hbs
    rw [List.filterMap_cons]
    cases hfb : f b with
    | none =>
      obtain ⟨cs, hsub, hcs⟩ := ih hbs seen
      refine ⟨cs, hsub.cons b, hcs.imp fun c y h => ⟨h.1, h.2.cons ?_⟩⟩
      rw [hfb]
      exact nofun
    | some x =>
      dsimp only
      rw [fresh]
      split
      · next hx =>
        obtain ⟨cs, hsub, hcs⟩ := ih hbs seen
        refine ⟨cs, hsub.cons b, hcs.imp fun c y h => ⟨h.1, h.2.cons ?_⟩⟩
        intro hfy
        cases hfb.symm.trans hfy
        exact h.1 hx
      · next hx =>
        obtain ⟨cs, hsub, hcs⟩ := ih hbs (seen.insert x)
        refine ⟨b :: cs, hsub.cons_cons b,
          .cons ⟨hx, isFirst_cons_self hb hfb⟩ (hcs.imp fun c y h => ?_)⟩
        obtain ⟨hy, hc⟩ := h
        rw [OrdSet.mem_insert, not_or] at hy
        refine ⟨hy.2, hc.cons fun h => hy.1 ?_⟩
        exact (Option.some.inj (hfb.symm.trans h)).symm

end IsFirst

end Fresh

/-! ## Layers of words -/

section Words

variable {α : Type}

/-- A word with one more symbol at the end, for each of the symbols. -/
def extensions (as : List α) (w : List α) : List (List α) :=
  as.map fun a => w ++ [a]

theorem mem_extensions {as w v : List α} :
    v ∈ extensions as w ↔ ∃ a ∈ as, w ++ [a] = v :=
  List.mem_map

/-- The words that extend words are longer by one. -/
theorem length_of_mem_flatMap_extensions {as : List α} {n : Nat}
    {ws : List (List α)} (hlen : ∀ w ∈ ws, w.length = n) :
    ∀ v ∈ ws.flatMap (extensions as), v.length = n + 1 := by
  intro v hv
  obtain ⟨w, hw, hv⟩ := List.mem_flatMap.mp hv
  obtain ⟨a, -, rfl⟩ := mem_extensions.mp hv
  rw [List.length_append, hlen w hw]
  rfl

/-- **The layers of words** hold the words with up to so many symbols
appended. -/
theorem mem_layers_extensions_iff {as : List α} {bound : Nat}
    {ws : List (List α)} {w : List α} :
    w ∈ layers (extensions as) bound ws ↔
      ∃ u ∈ ws, ∃ v, w = u ++ v ∧ v.length ≤ bound ∧ ∀ a ∈ v, a ∈ as := by
  induction bound generalizing ws with
  | zero =>
    refine ⟨fun h => ⟨w, h, [], by simp⟩, fun ⟨u, hu, v, hw, hv, _⟩ => ?_⟩
    rw [hw, List.eq_nil_of_length_eq_zero (Nat.le_zero.mp hv), List.append_nil]
    exact hu
  | succ bound ih =>
    rw [layers, List.mem_append, ih]
    constructor
    · rintro (h | ⟨u', hu', v, rfl, hv, hvas⟩)
      · exact ⟨w, h, [], by simp⟩
      · obtain ⟨u, hu, hu'⟩ := List.mem_flatMap.mp hu'
        obtain ⟨a, ha, rfl⟩ := mem_extensions.mp hu'
        exact ⟨u, hu, a :: v, List.append_assoc u [a] v, Nat.succ_le_succ hv,
          List.forall_mem_cons.mpr ⟨ha, hvas⟩⟩
    · rintro ⟨u, hu, v, rfl, hv, hvas⟩
      cases v with
      | nil =>
        rw [List.append_nil]
        exact Or.inl hu
      | cons a v =>
        -- the first symbol appended leads to the next layer
        obtain ⟨ha, hvas⟩ := List.forall_mem_cons.mp hvas
        exact Or.inr ⟨u ++ [a],
          List.mem_flatMap.mpr ⟨u, hu, mem_extensions.mpr ⟨a, ha, rfl⟩⟩, v,
          (List.append_assoc u [a] v).symm, Nat.le_of_succ_le_succ hv, hvas⟩

/-- The layers from the empty word on hold the words up to a length. -/
theorem mem_layers_nil_iff {as : List α} {bound : Nat} {w : List α} :
    w ∈ layers (extensions as) bound [[]] ↔
      w.length ≤ bound ∧ ∀ a ∈ w, a ∈ as := by
  rw [mem_layers_extensions_iff]
  simp

/-! ## Words in shortlex order -/

variable [LinearOrd α]

/-- **Shortlex**: a shorter word comes before a longer one, and words of one
length are ordered by the first symbol in which they differ. -/
def Precedes (u v : List α) : Prop :=
  List.Shortlex (fun a b => compare a b = .lt) u v

theorem precedes_of_length_lt {u v : List α} (h : u.length < v.length) :
    Precedes u v :=
  List.Shortlex.of_length_lt h

/-- Words of one length keep their order whatever is appended. -/
theorem precedes_append {u v : List α} (h : Precedes u v)
    (hlen : u.length = v.length) {x y : List α} (hxy : x.length = y.length) :
    Precedes (u ++ x) (v ++ y) := by
  refine List.Shortlex.of_lex (by simp [hlen, hxy]) ?_
  have hlex := (List.shortlex_iff_lex hlen).mp h
  clear h
  induction hlex with
  | nil => simp at hlen
  | cons _ ih => exact .cons (ih (Nat.succ.inj hlen))
  | rel h => exact .rel h

/-- **Words extended in order are in order.** -/
theorem pairwise_flatMap_extensions {as : List α}
    (has : as.Pairwise fun a b => compare a b = .lt) {n : Nat}
    {ws : List (List α)} (hws : ws.Pairwise Precedes)
    (hlen : ∀ w ∈ ws, w.length = n) :
    (ws.flatMap (extensions as)).Pairwise Precedes := by
  rw [List.pairwise_flatMap]
  refine ⟨fun w _ => ?_, ?_⟩
  · rw [extensions, List.pairwise_map]
    refine has.imp fun {a b} h => ?_
    have hab : Precedes [a] [b] := (List.shortlex_singleton_iff a b).mpr h
    exact hab.append_left w
  · refine hws.imp_of_mem fun hu hv h x hx y hy => ?_
    obtain ⟨a, -, rfl⟩ := mem_extensions.mp hx
    obtain ⟨b, -, rfl⟩ := mem_extensions.mp hy
    exact precedes_append h ((hlen _ hu).trans (hlen _ hv).symm) rfl

/-- **The layers of words are in shortlex order**, from words of one length in
order on. -/
theorem pairwise_layers {as : List α}
    (has : as.Pairwise fun a b => compare a b = .lt) {bound n : Nat}
    {ws : List (List α)} (hws : ws.Pairwise Precedes)
    (hlen : ∀ w ∈ ws, w.length = n) :
    (layers (extensions as) bound ws).Pairwise Precedes := by
  induction bound generalizing n ws with
  | zero => exact hws
  | succ bound ih =>
    have hlen' : ∀ v ∈ ws.flatMap (extensions as), v.length = n + 1 :=
      length_of_mem_flatMap_extensions hlen
    refine List.pairwise_append.mpr
      ⟨hws, ih (pairwise_flatMap_extensions has hws hlen) hlen',
        fun u hu v hv => precedes_of_length_lt ?_⟩
    obtain ⟨v', hv', x, rfl, -⟩ := mem_layers_extensions_iff.mp hv
    rw [hlen u hu, List.length_append, hlen' v' hv']
    exact Nat.lt_of_lt_of_le (Nat.lt_succ_self n) (Nat.le_add_right ..)

/-- **The least of the words** over an alphabet that have a property. -/
structure IsLeastWord (S : Alphabet α) (P : List α → Prop) (w : List α) :
    Prop where
  mem_alphabet : ∀ a ∈ w, a ∈ S
  holds : P w
  eq_or_precedes : ∀ v, (∀ a ∈ v, a ∈ S) → P v → v = w ∨ Precedes w v

end Words

/-! ## Positions in the order of their words -/

namespace Machine

variable {α σ : Type} [LinearOrd α]

/-- The positions that one step leads to, by symbol. -/
def successors (M : Machine α σ) (s : σ) : List σ :=
  M.alphabet.toList.filterMap (M.next? s)

/-- **What steps reach is what words lead to.** -/
theorem reachable_iff_exists_walk {M : Machine α σ} {s : σ} :
    Reachable M.successors [M.start] s ↔
      ∃ w, (∀ a ∈ w, a ∈ M.alphabet) ∧ M.walk M.start w = some s := by
  have hstep : ∀ {s t : σ}, t ∈ M.successors s ↔
      ∃ a ∈ M.alphabet, M.next? s a = some t := by
    intro s t
    rw [successors, List.mem_filterMap]
    simp only [Std.ExtTreeSet.mem_toList]
  constructor
  · intro h
    induction h with
    | start h => exact ⟨[], by simp, congrArg some (List.mem_singleton.mp h).symm⟩
    | step _ ht ih =>
      obtain ⟨w, hw, hs⟩ := ih
      obtain ⟨a, ha, hnext⟩ := hstep.mp ht
      refine ⟨w ++ [a], fun b hb => ?_, ?_⟩
      · rcases List.mem_append.mp hb with hb | hb
        · exact hw b hb
        · exact List.mem_singleton.mp hb ▸ ha
      · rw [walk_append, hs, Option.bind_some, walk_cons, hnext]
        rfl
  · rintro ⟨w, hw, hs⟩
    -- the last symbol is the last step
    induction w using List.reverseRecOn generalizing s with
    | nil => exact .start (List.mem_singleton.mpr (Option.some.inj hs).symm)
    | append_singleton w a ih =>
      rw [walk_append, Option.bind_eq_some_iff] at hs
      obtain ⟨t, ht, hnext⟩ := hs
      rw [walk_cons, Option.bind_eq_some_iff] at hnext
      obtain ⟨_, hnext, ⟨⟩⟩ := hnext
      exact .step (ih (fun b hb => hw b (List.mem_append.mpr (Or.inl hb))) ht)
        (hstep.mpr ⟨a, hw a (by simp), hnext⟩)

/-- Where the extensions of a word lead is one step from where the word
leads. -/
theorem filterMap_walk_extensions (M : Machine α σ) (w : List α) :
    (extensions M.alphabet.toList w).filterMap (M.walk M.start)
      = (M.walk M.start w).toList.flatMap M.successors := by
  have hstep : ∀ a, M.walk M.start (w ++ [a])
      = (M.walk M.start w).bind fun s => M.next? s a := fun a => by
    rw [walk_append]
    exact congrArg _ (funext fun s => Option.bind_fun_some (M.next? s a))
  rw [extensions, List.filterMap_map]
  show M.alphabet.toList.filterMap (fun a => M.walk M.start (w ++ [a])) = _
  simp only [hstep]
  cases M.walk M.start w with
  | none => simp
  | some s =>
    rw [Option.toList_some, List.flatMap_cons, List.flatMap_nil,
      List.append_nil]
    rfl

/-- **Positions are discovered in the order of their least words.** -/
theorem exists_leastWords_discover [LinearOrd σ] (M : Machine α σ) (bound : Nat) :
    ∃ ws : List (List α), ws.Pairwise Precedes ∧
      List.Forall₂
        (fun w s => IsLeastWord M.alphabet (M.walk M.start · = some s) w)
        ws (discover bound M.successors [M.start]) := by
  have hsorted : (layers (extensions M.alphabet.toList) bound [[]]).Pairwise
      Precedes :=
    pairwise_layers Std.ExtTreeSet.ordered_toList (List.pairwise_singleton _ _)
      (n := 0) (by simp)
  have hlayers : layers M.successors bound [M.start]
      = (layers (extensions M.alphabet.toList) bound [[]]).filterMap
          (M.walk M.start) :=
    (filterMap_layers M.filterMap_walk_extensions bound [[]]).symm
  obtain ⟨ws, hsub, hws⟩ :=
    exists_sublist_fresh_filterMap (f := M.walk M.start) hsorted ∅
  rw [discover_eq_fresh_layers, hlayers]
  refine ⟨ws, hsorted.sublist hsub, hws.imp fun w s hw => ?_⟩
  obtain ⟨-, hfirst⟩ := hw
  obtain ⟨hlen, hmem⟩ := mem_layers_nil_iff.mp hfirst.mem
  refine ⟨fun a ha => Std.ExtTreeSet.mem_toList.mp (hmem a ha),
    hfirst.image_eq, fun v hv hvs => ?_⟩
  by_cases hvlen : v.length ≤ bound
  · exact hfirst.eq_or_rel v (mem_layers_nil_iff.mpr ⟨hvlen, fun a ha =>
      Std.ExtTreeSet.mem_toList.mpr (hv a ha)⟩) hvs
  · -- longer than all words that are looked at
    exact Or.inr (precedes_of_length_lt (by omega))

end Machine

end Recognizer
