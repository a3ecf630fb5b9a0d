import Mathlib.Algebra.Order.Ring.Nat
import Mathlib.Data.List.Basic
import Mathlib.Data.Tree.Basic
import Mathlib.Tactic.SplitIfs

namespace Lexicon.SearchTree

/-!
# Search trees of numbers

A search tree that is never balanced takes its shape from the order in which its keys came: the
first key parts the later ones into those that go to its left and those that go to its right.

* `insert`, `ofKeys`, `inorder` — trees from keys, and their keys from left to right.
* `ofKeys_cons`, `keysInduction` — the first key parts the later ones.
* `log2_lt_height` — the least height of a tree with a given number of nodes.
* `height_filter_le`, `height_filter_le_filter` — the keys of an interval make no higher tree than
  all keys, or others that include them.
* `Ranked.height_le` — keys that are kept apart by keys of lesser rank make a tree no higher than
  there are ranks.
-/

/-- Adds a key below all others; one that is there already goes to the right of it. -/
def insert (key : Nat) : BinaryTree Nat → BinaryTree Nat
  | .nil => .node key .nil .nil
  | .node own left right =>
    if key < own then .node own (insert key left) right else .node own left (insert key right)

/-- Adds keys one after the other. -/
def insertMany (tree : BinaryTree Nat) (keys : List Nat) : BinaryTree Nat :=
  keys.foldl (fun tree key => insert key tree) tree

/-- Tree of some keys, added one after the other. -/
def ofKeys (keys : List Nat) : BinaryTree Nat :=
  insertMany .nil keys

/-- The keys from left to right. -/
def inorder : BinaryTree Nat → List Nat
  | .nil => []
  | .node own left right => inorder left ++ own :: inorder right

/-! ### The shape of a tree -/

/-- Keys that are added to a node go to its left or to its right, in the order in which they
    come. -/
theorem insertMany_node (own : Nat) (left right : BinaryTree Nat) (keys : List Nat) :
    insertMany (.node own left right) keys =
      .node own (insertMany left (keys.filter (· < own)))
        (insertMany right (keys.filter (own ≤ ·))) := by
  induction keys generalizing left right with
  | nil => rfl
  | cons key keys ih =>
    show insertMany (insert key (.node own left right)) keys = _
    by_cases h : key < own
    · rw [insert, if_pos h, ih, List.filter_cons_of_pos (by simpa using h),
        List.filter_cons_of_neg (by simpa using h)]
      rfl
    · rw [insert, if_neg h, ih, List.filter_cons_of_neg (by simpa using h),
        List.filter_cons_of_pos (by simpa using h)]
      rfl

/-- The first key parts the later ones. -/
theorem ofKeys_cons (key : Nat) (keys : List Nat) :
    ofKeys (key :: keys)
      = .node key (ofKeys (keys.filter (· < key))) (ofKeys (keys.filter (key ≤ ·))) :=
  insertMany_node key .nil .nil keys

/-- What holds of a list if it holds of the two parts of its later keys holds of all lists. -/
@[elab_as_elim]
theorem keysInduction {motive : List Nat → Prop} (nil : motive [])
    (cons : ∀ key keys, motive (keys.filter (· < key)) → motive (keys.filter (key ≤ ·)) →
      motive (key :: keys)) (keys : List Nat) : motive keys := by
  induction hlength : keys.length using Nat.strong_induction_on generalizing keys with
  | _ length ih =>
    cases keys with
    | nil => exact nil
    | cons key keys =>
      have hlt : keys.length < length := by
        rw [← hlength, List.length_cons]
        exact Nat.lt_succ_self _
      have hparts : ∀ p : Nat → Bool, motive (keys.filter p) := fun p =>
        ih _ (lt_of_le_of_lt (List.length_filter_le p keys) hlt) _ rfl
      exact cons key keys (hparts _) (hparts _)

/-- Every key goes to one of the two sides. -/
theorem sides_perm (key : Nat) (keys : List Nat) :
    (keys.filter (· < key) ++ keys.filter (key ≤ ·)).Perm keys := by
  simpa only [← decide_not, not_lt] using List.filter_append_perm (· < key) keys

/-- Each key makes a node. -/
theorem numNodes_ofKeys (keys : List Nat) : (ofKeys keys).numNodes = keys.length := by
  induction keys using keysInduction with
  | nil => rfl
  | cons key keys ihleft ihright =>
    have hsides := (sides_perm key keys).length_eq
    rw [List.length_append] at hsides
    rw [ofKeys_cons, BinaryTree.numNodes, ihleft, ihright, hsides, List.length_cons]

/-- A tree holds the keys that were added. -/
theorem inorder_perm (keys : List Nat) : (inorder (ofKeys keys)).Perm keys := by
  induction keys using keysInduction with
  | nil => rfl
  | cons key keys ihleft ihright =>
    have hsides := (ihleft.append ihright).trans (sides_perm key keys)
    rw [ofKeys_cons, inorder]
    exact List.perm_middle.trans (hsides.cons key)

/-- The keys of a tree ascend from left to right. -/
theorem inorder_pairwise (keys : List Nat) : (inorder (ofKeys keys)).Pairwise (· ≤ ·) := by
  induction keys using keysInduction with
  | nil => exact List.Pairwise.nil
  | cons key keys ihleft ihright =>
    have hleft : ∀ a ∈ inorder (ofKeys (keys.filter (· < key))), a < key := by
      intro a ha
      simpa using (List.mem_filter.mp ((inorder_perm _).subset ha)).2
    have hright : ∀ b ∈ inorder (ofKeys (keys.filter (key ≤ ·))), key ≤ b := by
      intro b hb
      simpa using (List.mem_filter.mp ((inorder_perm _).subset hb)).2
    rw [ofKeys_cons, inorder, List.pairwise_append, List.pairwise_cons]
    refine ⟨ihleft, ⟨hright, ihright⟩, fun a ha b hb => ?_⟩
    rcases List.mem_cons.mp hb with rfl | hb
    · exact (hleft a ha).le
    · exact (hleft a ha).le.trans (hright b hb)

/-! ### The height of a tree -/

theorem numNodes_lt_two_pow_height (tree : BinaryTree Nat) :
    tree.numNodes < 2 ^ tree.height := by
  induction tree with
  | nil => exact Nat.one_pos
  | node own left right ihleft ihright =>
    have hleft : 2 ^ left.height ≤ 2 ^ max left.height right.height :=
      Nat.pow_le_pow_right Nat.two_pos (Nat.le_max_left _ _)
    have hright : 2 ^ right.height ≤ 2 ^ max left.height right.height :=
      Nat.pow_le_pow_right Nat.two_pos (Nat.le_max_right _ _)
    rw [BinaryTree.numNodes, BinaryTree.height, Nat.pow_succ]
    omega

/-- No tree with as many nodes is less high. -/
theorem log2_lt_height {tree : BinaryTree Nat} (h : tree.numNodes ≠ 0) :
    tree.numNodes.log2 < tree.height :=
  (Nat.log2_lt h).mpr (numNodes_lt_two_pow_height tree)

/-! ### Intervals of keys -/

/-- A property that keys between two that have it have too. -/
def Convex (keys : List Nat) (p : Nat → Bool) : Prop :=
  ∀ a ∈ keys, ∀ b ∈ keys, ∀ c ∈ keys, a ≤ b → b ≤ c → p a = true → p c = true → p b = true

theorem Convex.mono {keys keys' : List Nat} {p : Nat → Bool} (h : Convex keys p)
    (hsub : keys' ⊆ keys) : Convex keys' p :=
  fun a ha b hb c hc => h a (hsub ha) b (hsub hb) c (hsub hc)

theorem convex_lt (keys : List Nat) (key : Nat) : Convex keys (· < key) := by
  intro a _ b _ c _ _ hbc _ hc
  rw [decide_eq_true_eq] at hc ⊢
  exact hbc.trans_lt hc

theorem convex_gt (keys : List Nat) (key : Nat) : Convex keys (key < ·) := by
  intro a _ b _ c _ hab _ ha _
  rw [decide_eq_true_eq] at ha ⊢
  exact ha.trans_le hab

/-- The keys of an interval make no higher tree than all keys. -/
theorem height_filter_le {keys : List Nat} {p : Nat → Bool} (h : Convex keys p) :
    (ofKeys (keys.filter p)).height ≤ (ofKeys keys).height := by
  induction keys using keysInduction with
  | nil => exact Nat.le_refl _
  | cons key keys ihleft ihright =>
    have hleft := ihleft (h.mono fun a ha => List.mem_cons_of_mem _ (List.mem_of_mem_filter ha))
    have hright := ihright (h.mono fun a ha => List.mem_cons_of_mem _ (List.mem_of_mem_filter ha))
    rw [List.filter_filter] at hleft hright
    rw [ofKeys_cons, BinaryTree.height]
    by_cases hkey : p key = true
    · -- The first key stays the topmost one.
      rw [List.filter_cons_of_pos hkey, ofKeys_cons, BinaryTree.height, List.filter_filter,
        List.filter_filter]
      simp only [Bool.and_comm] at hleft hright ⊢
      omega
    · -- The interval is on one side of the first key.
      rw [List.filter_cons_of_neg hkey]
      by_cases hbefore : ∃ a ∈ keys, a < key ∧ p a = true
      · obtain ⟨a, ha, hlt, hpa⟩ := hbefore
        have hpart : keys.filter p = keys.filter fun b => p b && decide (b < key) := by
          refine List.filter_congr fun b hb => ?_
          rw [Bool.eq_iff_iff, Bool.and_eq_true, decide_eq_true_eq]
          refine ⟨fun hpb => ⟨hpb, ?_⟩, And.left⟩
          by_contra hge
          exact hkey (h a (List.mem_cons_of_mem _ ha) key List.mem_cons_self b
            (List.mem_cons_of_mem _ hb) hlt.le (not_lt.mp hge) hpa hpb)
        rw [hpart]
        omega
      · have hpart : keys.filter p = keys.filter fun b => p b && decide (key ≤ b) := by
          refine List.filter_congr fun b hb => ?_
          rw [Bool.eq_iff_iff, Bool.and_eq_true, decide_eq_true_eq]
          refine ⟨fun hpb => ⟨hpb, ?_⟩, And.left⟩
          by_contra hlt
          exact hbefore ⟨b, hb, not_le.mp hlt, hpb⟩
        rw [hpart]
        omega

/-- An interval of keys makes no higher tree than other keys that include it. -/
theorem height_filter_le_filter {keys : List Nat} {p q : Nat → Bool} (h : Convex keys p)
    (hpq : ∀ a ∈ keys, p a = true → q a = true) :
    (ofKeys (keys.filter p)).height ≤ (ofKeys (keys.filter q)).height := by
  have hfilter : keys.filter p = (keys.filter q).filter p := by
    rw [List.filter_filter]
    refine List.filter_congr fun a ha => ?_
    rw [Bool.eq_iff_iff, Bool.and_eq_true]
    exact ⟨fun hp => ⟨hp, hpq a ha hp⟩, And.left⟩
  rw [hfilter]
  exact height_filter_le (h.mono (List.filter_subset_self keys))

/-! ### Ranks of keys -/

/-- Keys that come in the order of their ranks, and of which any two of one rank have a key of a
    lesser rank between them. -/
structure Ranked (rank : Nat → Nat) (keys : List Nat) : Prop where
  /-- Keys of lesser rank come first. -/
  ascending : keys.Pairwise fun a b => rank a ≤ rank b
  /-- Keys of one rank are kept apart. -/
  apart : ∀ a ∈ keys, ∀ b ∈ keys, a < b → rank a = rank b →
    ∃ c ∈ keys, a < c ∧ c < b ∧ rank c < rank a

variable {rank : Nat → Nat} {keys : List Nat}

theorem Ranked.filter (h : Ranked rank keys) {p : Nat → Bool} (hp : Convex keys p) :
    Ranked rank (keys.filter p) where
  ascending := h.ascending.filter p
  apart := by
    intro a ha b hb hlt heq
    obtain ⟨ha, hpa⟩ := List.mem_filter.mp ha
    obtain ⟨hb, hpb⟩ := List.mem_filter.mp hb
    obtain ⟨c, hc, hac, hcb, hrank⟩ := h.apart a ha b hb hlt heq
    exact ⟨c, List.mem_filter.mpr ⟨hc, hp a ha c hc b hb hac.le hcb.le hpa hpb⟩, hac, hcb, hrank⟩

/-- The topmost key has a rank of its own. -/
theorem Ranked.rank_lt {key : Nat} (h : Ranked rank (key :: keys))
    (hnodup : (key :: keys).Nodup) : ∀ a ∈ keys, rank key < rank a := by
  intro a ha
  have hle := (List.pairwise_cons.mp h.ascending).1
  refine lt_of_le_of_ne (hle a ha) fun heq => ?_
  -- A key between the two would come before the first.
  have hbetween : ∃ c ∈ key :: keys, rank c < rank key := by
    have hmem := List.mem_cons_of_mem key ha
    have hne : key ≠ a := by
      rintro rfl
      exact (List.nodup_cons.mp hnodup).1 ha
    rcases Nat.lt_or_gt_of_ne hne with hlt | hgt
    · obtain ⟨c, hc, -, -, hrank⟩ := h.apart key List.mem_cons_self a hmem hlt heq
      exact ⟨c, hc, hrank⟩
    · obtain ⟨c, hc, -, -, hrank⟩ := h.apart a hmem key List.mem_cons_self hgt heq.symm
      exact ⟨c, hc, heq ▸ hrank⟩
  obtain ⟨c, hc, hrank⟩ := hbetween
  rcases List.mem_cons.mp hc with rfl | hc
  · exact lt_irrefl _ hrank
  · exact absurd (hle c hc) (not_le.mpr hrank)

/-- A tree is no higher than its keys have ranks. -/
theorem Ranked.height_le (h : Ranked rank keys) (hnodup : keys.Nodup) {low high : Nat}
    (hlow : ∀ a ∈ keys, low ≤ rank a) (hhigh : ∀ a ∈ keys, rank a < high) :
    (ofKeys keys).height ≤ high - low := by
  induction keys using keysInduction generalizing low with
  | nil => exact Nat.zero_le _
  | cons key keys ihleft ihright =>
    have hrank := h.rank_lt hnodup
    have hkey := hlow key List.mem_cons_self
    have hkey' := hhigh key List.mem_cons_self
    -- The keys of either side are an interval of all of them.
    have hleft : (key :: keys).filter (· < key) = keys.filter (· < key) :=
      List.filter_cons_of_neg (by simp)
    have hright : (key :: keys).filter (key < ·) = keys.filter (key ≤ ·) := by
      rw [List.filter_cons_of_neg (by simp)]
      refine List.filter_congr fun a ha => ?_
      have hne : a ≠ key := ne_of_mem_of_not_mem ha (List.nodup_cons.mp hnodup).1
      rw [decide_eq_decide]
      omega
    have hrankedLeft := hleft ▸ h.filter (convex_lt _ key)
    have hrankedRight := hright ▸ h.filter (convex_gt _ key)
    have hside : ∀ p : Nat → Bool, (keys.filter p).Nodup ∧
        (∀ a ∈ keys.filter p, rank key + 1 ≤ rank a) ∧ ∀ a ∈ keys.filter p, rank a < high := by
      intro p
      refine ⟨(List.nodup_cons.mp hnodup).2.filter p,
        fun a ha => hrank a (List.mem_of_mem_filter ha), fun a ha => ?_⟩
      exact hhigh a (List.mem_cons_of_mem _ (List.mem_of_mem_filter ha))
    obtain ⟨hnodupLeft, hlowLeft, hhighLeft⟩ := hside (· < key)
    obtain ⟨hnodupRight, hlowRight, hhighRight⟩ := hside (key ≤ ·)
    have hheightLeft := ihleft hrankedLeft hnodupLeft hlowLeft hhighLeft
    have hheightRight := ihright hrankedRight hnodupRight hlowRight hhighRight
    rw [ofKeys_cons, BinaryTree.height]
    omega

end Lexicon.SearchTree
