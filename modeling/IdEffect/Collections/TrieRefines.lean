import IdEffect.Collections.Trie
import IdEffect.Lib.Refine
import Mathlib.Data.Finmap

set_option autoImplicit false

/-! # The trie is a finite map from strings

`Node.lookup` reads a tree as a function on paths, `Node.entries` as the list of its entries in
depth-first order; branches that a removal left without values show in neither. The operations of
the trie are described through these two, and `trie_refines` assembles the descriptions into the
refinement of a `Finmap`, for every sequence of operations. -/

namespace IdEffect.Collections

open Compute

variable {V R : Type}

/-! ## Updates read as changes of a function -/

namespace Node

/-- The value at the end of a path. -/
def lookup (node : Node V) (key : List Char) : Option V :=
  (navigateRef key node).bind value

@[simp] theorem lookup_nil (node : Node V) : node.lookup [] = node.value := rfl

theorem lookup_cons (node : Node V) (ch : Char) (key : List Char) :
    node.lookup (ch :: key) = (Assoc.get ch node.children).bind (·.lookup key) := by
  rw [lookup, navigateRef, Option.bind_assoc]
  rfl

@[simp] theorem lookup_default (key : List Char) : (default : Node V).lookup key = none := by
  cases key <;> rfl

/-- A missing child is as good as an empty one. -/
theorem lookup_getD (child : Option (Node V)) (key : List Char) :
    (child.getD default).lookup key = child.bind (·.lookup key) := by
  cases child with
  | none => exact lookup_default key
  | some child => rfl

/-- What is under one child after it was exchanged. -/
theorem lookup_insert (value : Option V) (children : List (Char × Node V)) (ch : Char)
    (child : Node V) (c : Char) (key : List Char) :
    (mk value (Assoc.insert ch child children)).lookup (c :: key)
      = if c = ch then child.lookup key else (mk value children).lookup (c :: key) := by
  rw [lookup_cons, lookup_cons, children_mk, children_mk, Assoc.get_insert]
  split <;> rfl

theorem navigateMut_replace (key : List Char) (v : V) (node : Node V) :
    (navigateMut (replace v) key node).1 = node.lookup key ∧
      ∀ k, (navigateMut (replace v) key node).2.lookup k
        = if k = key then some v else node.lookup k := by
  induction key generalizing node with
  | nil =>
      obtain ⟨value, children⟩ := node
      refine ⟨rfl, fun k => ?_⟩
      cases k with
      | nil => rfl
      | cons c k => rfl
  | cons ch key ih =>
      obtain ⟨value, children⟩ := node
      -- a child that is missing is made, and an empty node looks up nothing
      obtain ⟨hres, hlook⟩ := ih ((Assoc.get ch children).getD default)
      refine ⟨?_, fun k => ?_⟩
      · rw [navigateMut, lookup_cons, ← lookup_getD]
        exact hres
      · cases k with
        | nil => rfl
        | cons c k =>
            rw [navigateMut]
            rw [lookup_insert, hlook, lookup_getD]
            by_cases hc : c = ch
            · subst hc
              rw [if_pos rfl, lookup_cons]
              simp only [List.cons.injEq, true_and]
              rfl
            · simp [hc]

/-- Taking the value out of the node at `key`, where there is one. -/
theorem navigateMutOptional_take (key : List Char) (node : Node V) :
    match navigateMutOptional take key node with
    | none => node.lookup key = none
    | some (r, node') => r = node.lookup key ∧
        ∀ k, node'.lookup k = if k = key then none else node.lookup k := by
  induction key generalizing node with
  | nil =>
      obtain ⟨value, children⟩ := node
      refine ⟨rfl, fun k => ?_⟩
      cases k <;> rfl
  | cons ch key ih =>
      obtain ⟨value, children⟩ := node
      rw [navigateMutOptional, lookup_cons, children_mk]
      cases hch : Assoc.get ch children with
      | none => rfl
      | some child =>
          have ih := ih child
          simp only [Option.bind_eq_bind, Option.bind_some]
          cases hnav : navigateMutOptional take key child with
          | none =>
              rw [hnav] at ih
              exact ih
          | some res =>
              rw [hnav] at ih
              refine ⟨ih.1, fun k => ?_⟩
              cases k with
              | nil => rfl
              | cons c k =>
                  rw [lookup_insert, ih.2]
                  by_cases hc : c = ch
                  · subst hc
                    simp [lookup_cons, hch]
                  · simp [hc]

/-! ## The entries of a tree -/

mutual

/-- The entries below a node, depth first, under their paths from it. -/
def entries : Node V → List (List Char × V)
  | ⟨value, children⟩ => (value.map fun v => ([], v)).toList ++ childEntries children

def childEntries : List (Char × Node V) → List (List Char × V)
  | [] => []
  | (ch, child) :: rest => child.entries.map (fun e => (ch :: e.1, e.2)) ++ childEntries rest

end

attribute [local simp] entries childEntries

theorem mem_childEntries {l : List (Char × Node V)} {key : List Char} {v : V} :
    (key, v) ∈ childEntries l ↔ ∃ p ∈ l, ∃ rest, key = p.1 :: rest ∧ (rest, v) ∈ p.2.entries := by
  induction l with
  | nil => simp
  | cons p l ih =>
      obtain ⟨ch, child⟩ := p
      rw [childEntries, List.mem_append, ih, List.exists_mem_cons_iff]
      refine or_congr ?_ Iff.rfl
      constructor
      · intro h
        obtain ⟨⟨rest, w⟩, hmem, heq⟩ := List.mem_map.mp h
        obtain ⟨rfl, rfl⟩ := Prod.mk.inj heq
        exact ⟨rest, rfl, hmem⟩
      · rintro ⟨rest, rfl, hmem⟩
        exact List.mem_map.mpr ⟨(rest, v), hmem, rfl⟩

theorem nil_mem_entries {value : Option V} {children : List (Char × Node V)} {v : V} :
    ([], v) ∈ (mk value children).entries ↔ value = some v := by
  have hno : ([], v) ∉ childEntries children := by
    intro h
    obtain ⟨p, _, rest, heq, _⟩ := mem_childEntries.mp h
    exact absurd heq (by simp)
  rw [entries, List.mem_append, or_iff_left hno]
  cases value <;> simp [eq_comm]

theorem cons_mem_entries {value : Option V} {children : List (Char × Node V)} {c : Char}
    {key : List Char} {v : V} :
    (c :: key, v) ∈ (mk value children).entries ↔
      ∃ p ∈ children, p.1 = c ∧ (key, v) ∈ p.2.entries := by
  have hno : (c :: key, v) ∉ (value.map fun v => (([] : List Char), v)).toList := by
    cases value <;> simp
  rw [entries, List.mem_append, or_iff_right hno, mem_childEntries]
  constructor
  · rintro ⟨p, hp, rest, heq, hmem⟩
    obtain ⟨rfl, rfl⟩ := List.cons.inj heq
    exact ⟨p, hp, rfl, hmem⟩
  · rintro ⟨p, hp, rfl, hmem⟩
    exact ⟨p, hp, key, rfl, hmem⟩

/-- The entries are the paths at which a value is found, with these values. -/
theorem mem_entries {node : Node V} (h : node.Ordered) {key : List Char} {v : V} :
    (key, v) ∈ node.entries ↔ node.lookup key = some v := by
  induction key generalizing node with
  | nil =>
      obtain ⟨value, children⟩ := node
      exact nil_mem_entries
  | cons c key ih =>
      obtain ⟨value, children⟩ := node
      rw [cons_mem_entries, lookup_cons, Option.bind_eq_some_iff, children_mk]
      constructor
      · rintro ⟨⟨_, child⟩, hp, rfl, hmem⟩
        exact ⟨child, h.ascending.get_of_mem hp, (ih (h.child hp)).mp hmem⟩
      · rintro ⟨child, hget, hlook⟩
        exact ⟨(c, child), Assoc.mem_of_get hget, rfl, (ih (h.of_get hget)).mpr hlook⟩

theorem pairwise_childEntries {l : List (Char × Node V)} (hasc : Assoc.Ascending l)
    (heach : ∀ p ∈ l, p.2.entries.Pairwise (fun e e' => e.1 < e'.1)) :
    (childEntries l).Pairwise (fun e e' => e.1 < e'.1) := by
  induction l with
  | nil => exact .nil
  | cons p l ih =>
      obtain ⟨ch, child⟩ := p
      rw [childEntries]
      refine List.pairwise_append.mpr ⟨?_, ih hasc.tail fun q hq =>
        heach q (List.mem_cons_of_mem _ hq), ?_⟩
      · refine List.pairwise_map.mpr ((heach _ (List.mem_cons_self ..)).imp ?_)
        exact fun hlt => List.cons_lt_cons_iff.mpr (.inr ⟨rfl, hlt⟩)
      · rintro ⟨key, v⟩ hmem ⟨key', v'⟩ hmem'
        obtain ⟨e, _, heq⟩ := List.mem_map.mp hmem
        obtain ⟨rfl, rfl⟩ := Prod.mk.inj heq
        obtain ⟨q, hq, rest, rfl, _⟩ := mem_childEntries.mp hmem'
        exact List.cons_lt_cons_iff.mpr (.inl (hasc.lt_of_mem hq))

/-- The entries are listed in ascending order of their paths. -/
theorem pairwise_entries (node : Node V) (h : node.Ordered) :
    node.entries.Pairwise (fun e e' => e.1 < e'.1) := by
  induction node using Node.induct with
  | mk value children ih =>
      have hchildren := pairwise_childEntries h.ascending fun p hp => ih p hp (h.child hp)
      rw [entries]
      refine List.pairwise_append.mpr ⟨by cases value <;> simp, hchildren, ?_⟩
      rintro e he ⟨key, v⟩ hmem
      obtain ⟨q, _, rest, rfl, _⟩ := mem_childEntries.mp hmem
      have hnil : e.1 = [] := by cases value <;> simp_all
      rw [hnil]
      exact List.nil_lt_cons ..

/-! ## What the walks over a tree compute -/

attribute [local simp] countNodes countChildren countNodesPar countChildrenPar collectEntries
  collectChildEntries collectKeys collectChildKeys

theorem countNodes_eq (node : Node V) : countNodes node = node.entries.length := by
  induction node using Node.induct with
  | mk value children ih =>
      have hchildren : countChildren children = (childEntries children).length := by
        induction children with
        | nil => rfl
        | cons p l ihl =>
            rw [countChildren, childEntries, ih p (List.mem_cons_self ..),
              ihl fun q hq => ih q (List.mem_cons_of_mem _ hq), List.length_append, List.length_map]
      rw [countNodes, entries, List.length_append, hchildren]
      cases value <;> rfl

/-- The sum does not depend on the order in which the parallel iterator delivers. -/
theorem countNodesPar_eq (bridge : Node V → Arrival) (node : Node V) :
    countNodesPar bridge node = countNodes node := by
  induction node using Node.induct with
  | mk value children ih =>
      have hchildren : (countChildrenPar bridge children).sum = countChildren children := by
        induction children with
        | nil => rfl
        | cons p l ihl =>
            rw [countChildrenPar, countChildren, List.sum_cons, ih p (List.mem_cons_self ..),
              ihl fun q hq => ih q (List.mem_cons_of_mem _ hq)]
      rw [countNodesPar, countNodes, Arrival.sum_eq, hchildren]

/-- An entry under its full key. -/
def keyed (pre : String) (e : List Char × V) : String × V :=
  (String.ofList (pre.toList ++ e.1), e.2)

theorem keyed_push (pre : String) (ch : Char) (e : List Char × V) :
    keyed (pre.push ch) e = keyed pre (ch :: e.1, e.2) := by
  rw [keyed, keyed, String.toList_push, List.append_assoc, List.singleton_append]

theorem collectEntries_eq (node : Node V) (pre : String) (out : List (String × V)) :
    collectEntries node pre out = out ++ node.entries.map (keyed pre) := by
  induction node using Node.induct generalizing pre out with
  | mk value children ih =>
      have hchildren : ∀ out, collectChildEntries children pre out
          = out ++ (childEntries children).map (keyed pre) := by
        induction children with
        | nil => exact fun out => (List.append_nil out).symm
        | cons p l ihl =>
            intro out
            have hpush : keyed (V := V) (pre.push p.1) = keyed pre ∘ fun e => (p.1 :: e.1, e.2) :=
              funext (keyed_push pre p.1)
            rw [collectChildEntries, childEntries, ih p (List.mem_cons_self ..),
              ihl fun q hq => ih q (List.mem_cons_of_mem _ hq), List.map_append, List.map_map,
              hpush, List.append_assoc]
      rw [entries, List.map_append, ← List.append_assoc]
      cases value with
      | none => simp [hchildren]
      | some v => simp [hchildren, keyed]

theorem collectKeys_eq (node : Node V) (pre : String) (out : List (String × V)) :
    collectKeys node pre (out.map Prod.fst) = (collectEntries node pre out).map Prod.fst := by
  induction node using Node.induct generalizing pre out with
  | mk value children ih =>
      have hchildren : ∀ out : List (String × V), collectChildKeys children pre (out.map Prod.fst)
          = (collectChildEntries children pre out).map Prod.fst := by
        induction children with
        | nil => exact fun _ => rfl
        | cons p l ihl =>
            intro out
            rw [collectChildKeys, collectChildEntries, ih p (List.mem_cons_self ..),
              ihl fun q hq => ih q (List.mem_cons_of_mem _ hq)]
      cases value with
      | none => simp [hchildren]
      | some v => simp [← hchildren]

/-! ## Prefixes -/

theorem lookup_append (node : Node V) (pre key : List Char) :
    node.lookup (pre ++ key) = (navigateRef pre node).bind (·.lookup key) := by
  induction pre generalizing node with
  | nil => rfl
  | cons ch pre ih =>
      rw [List.cons_append, lookup_cons, navigateRef, Option.bind_assoc]
      exact congrArg _ (funext fun child => ih child)

theorem Ordered.navigateRef {node start : Node V} (h : node.Ordered) {pre : List Char}
    (hs : navigateRef pre node = some start) : start.Ordered := by
  induction pre generalizing node with
  | nil =>
      obtain rfl := Option.some.inj hs
      exact h
  | cons ch pre ih =>
      obtain ⟨child, hget, hs⟩ := Option.bind_eq_some_iff.mp hs
      exact ih (h.of_get hget) hs

/-- The length of a string in bytes. -/
def bytes (key : List Char) : ℕ := (key.map Char.utf8Size).sum

@[simp] theorem bytes_cons (c : Char) (key : List Char) :
    bytes (c :: key) = c.utf8Size + bytes key := by
  simp [bytes]

/-- Cutting at the end of a prefix cuts at a character boundary. -/
theorem sliceTo_bytes {key cs : List Char} (h : key <+: cs) :
    sliceTo cs (bytes key) = some key := by
  induction key generalizing cs with
  | nil => cases cs <;> rfl
  | cons c key ih =>
      obtain ⟨rest, rfl⟩ := h
      have hpos : 0 < c.utf8Size := c.utf8Size_pos
      obtain ⟨n, hn⟩ : ∃ n, bytes (c :: key) = n + 1 := ⟨c.utf8Size - 1 + bytes key, by simp; omega⟩
      have hle : c.utf8Size ≤ n + 1 := by simp at hn; omega
      have hrest : n + 1 - c.utf8Size = bytes key := by simp at hn; omega
      rw [hn, List.cons_append, sliceTo, if_pos hle, hrest, ih (List.prefix_append ..)]
      rfl

/-- Nothing is stored at the non-empty prefixes of `cs`. -/
def NoneBelow (node : Node V) (cs : List Char) : Prop :=
  ∀ key, key <+: cs → key ≠ [] → node.lookup key = none

/-- `key` is the longest non-empty prefix of `cs` at which something is stored. -/
structure LongestBelow (node : Node V) (cs key : List Char) : Prop where
  pre : key <+: cs
  ne_nil : key ≠ []
  stored : node.lookup key ≠ none
  longest : ∀ k, k <+: cs → node.lookup k ≠ none → k.length ≤ key.length

theorem longestEnd_cons {node next : Node V} {c : Char} (h : Assoc.get c node.children = some next)
    (last : Option ℕ) (idx : ℕ) (cs : List Char) :
    longestEnd node last idx (c :: cs) = longestEnd next
      (if next.value.isSome then some (idx + c.utf8Size) else last) (idx + c.utf8Size) cs := by
  rw [longestEnd, h]

/-- The walk keeps the offset it started with, or ends with that of the longest stored prefix. -/
theorem longestEnd_spec (node : Node V) (last : Option ℕ) (idx : ℕ) (cs : List Char) :
    longestEnd node last idx cs = last ∧ node.NoneBelow cs ∨
      ∃ key, node.LongestBelow cs key ∧ longestEnd node last idx cs = some (idx + bytes key) := by
  induction cs generalizing node last idx with
  | nil => exact .inl ⟨rfl, fun key hp hne => absurd (List.prefix_nil.mp hp) hne⟩
  | cons c cs ih =>
      -- a stored non-empty prefix goes through the child of `c`
      have hcons : ∀ k, k <+: c :: cs → k ≠ [] → ∃ k', k = c :: k' ∧ k' <+: cs := by
        intro k hp hne
        obtain ⟨d, k', rfl⟩ := List.exists_cons_of_ne_nil hne
        obtain ⟨rfl, hp'⟩ := List.cons_prefix_cons.mp hp
        exact ⟨k', rfl, hp'⟩
      cases hget : Assoc.get c node.children with
      | none =>
          refine .inl ⟨by rw [longestEnd, hget], fun key hp hne => ?_⟩
          obtain ⟨k', rfl, _⟩ := hcons key hp hne
          rw [lookup_cons, hget]
          rfl
      | some next =>
          have hlook : ∀ k, node.lookup (c :: k) = next.lookup k := by
            intro k
            rw [lookup_cons, hget]
            rfl
          rw [longestEnd_cons hget]
          rcases ih next (if next.value.isSome then some (idx + c.utf8Size) else last)
            (idx + c.utf8Size) with ⟨hend, hnone⟩ | ⟨key, hkey, hend⟩
          -- nothing is stored below `next`: it is the character `c` itself, or nothing at all
          · by_cases hv : next.value.isSome
            · refine .inr ⟨[c], ⟨⟨cs, rfl⟩, by simp, ?_, fun k hp hk => ?_⟩, ?_⟩
              · rw [hlook, lookup_nil]
                exact Option.isSome_iff_ne_none.mp hv
              · by_cases hne : k = []
                · simp [hne]
                · obtain ⟨k', rfl, hp'⟩ := hcons k hp hne
                  rw [hlook] at hk
                  have hnil : k' = [] := by_contra fun hne' => hk (hnone k' hp' hne')
                  simp [hnil]
              · rw [hend, if_pos hv]
                simp [bytes]
            · refine .inl ⟨by rw [hend, if_neg hv], fun k hp hne => ?_⟩
              obtain ⟨k', rfl, hp'⟩ := hcons k hp hne
              rw [hlook]
              by_cases hnil : k' = []
              · rw [hnil, lookup_nil]
                exact Option.not_isSome_iff_eq_none.mp hv
              · exact hnone k' hp' hnil
          -- a key below `next` is longer than that of `next`
          · refine .inr ⟨c :: key, ⟨List.cons_prefix_cons.mpr ⟨rfl, hkey.pre⟩, by simp, ?_,
              fun k hp hk => ?_⟩, ?_⟩
            · rw [hlook]
              exact hkey.stored
            · by_cases hne : k = []
              · simp [hne]
              · obtain ⟨k', rfl, hp'⟩ := hcons k hp hne
                rw [hlook] at hk
                exact Nat.succ_le_succ (hkey.longest k' hp' hk)
            · rw [hend, bytes_cons, Nat.add_assoc]

end Node

/-! ## The finite map -/

inductive Op (V : Type) where
  | insert (key : String) (value : V)
  | remove (key : String)

def Trie.apply (t : Trie V) : Op V → Option V × Trie V
  | .insert key value => t.insert key value
  | .remove key => t.remove key

/-- A finite map from strings. -/
abbrev StringMap (V : Type) : Type := Finmap (fun _ : String => V)

/-- What the operations mean. -/
def StringMap.apply (m : StringMap V) : Op V → Option V × StringMap V
  | .insert key value => (m.lookup key, m.insert key value)
  | .remove key => (m.lookup key, m.erase key)

/-- `r` is the longest key of the map that is a prefix of `s`, if there is one. -/
def StringMap.LongestPrefix (m : StringMap V) (s : String) : Option String → Prop
  | none => ∀ k ∈ m, ¬ k.toList <+: s.toList
  | some r => r ∈ m ∧ r.toList <+: s.toList ∧
      ∀ k ∈ m, k.toList <+: s.toList → k.toList.length ≤ r.toList.length

/-- Every query of the trie answers as the map would. -/
structure Trie.Represents (t : Trie V) (m : StringMap V) : Prop where
  get : ∀ key, t.get key = m.lookup key
  has : ∀ key, t.has key = true ↔ key ∈ m
  size : ∀ profitable bridge, t.size profitable bridge = m.keys.card
  entries : ∀ pre key v, (key, v) ∈ t.entriesWithPrefix pre ↔
    m.lookup key = some v ∧ pre.toList <+: key.toList
  ascending : ∀ pre, (t.entriesWithPrefix pre).Pairwise (fun e e' => e.1.toList < e'.1.toList)
  keys : ∀ pre, t.keysWithPrefix pre = (t.entriesWithPrefix pre).map Prod.fst
  longest : ∀ s, ∃ r, t.longestPrefixOf s = some r ∧ m.LongestPrefix s r

/-- The relation that the operations keep: both sides look up the same. -/
def Trie.LooksUp (t : Trie V) (m : StringMap V) : Prop :=
  ∀ key : String, t.root.lookup key.toList = m.lookup key

theorem Trie.remove_spec (t : Trie V) (key : String) :
    (t.remove key).1 = t.root.lookup key.toList ∧
      ∀ k, (t.remove key).2.root.lookup k
        = if k = key.toList then none else t.root.lookup k := by
  have hspec := Node.navigateMutOptional_take key.toList t.root
  rw [remove]
  split
  -- there is no node for the key, and nothing to remove
  · rename_i hnav
    rw [hnav] at hspec
    refine ⟨hspec.symm, fun k => ?_⟩
    by_cases hk : k = key.toList
    · rw [if_pos hk, hk, hspec]
    · rw [if_neg hk]
  · rename_i res hnav
    rw [hnav] at hspec
    exact hspec

theorem Trie.apply_simulates :
    Refine.Simulates (Trie.apply (V := V)) StringMap.apply Trie.LooksUp := by
  intro t m op h
  cases op with
  | insert key value =>
      obtain ⟨hres, hlook⟩ := Node.navigateMut_replace key.toList value t.root
      refine ⟨hres.trans (h key), fun k => ?_⟩
      show (navigateMut (Node.replace value) key.toList t.root).2.lookup k.toList
        = (m.insert key value).lookup k
      rw [hlook, h k]
      by_cases hk : k = key
      · rw [if_pos (congrArg _ hk), hk, Finmap.lookup_insert]
      · rw [if_neg fun heq => hk (String.toList_inj.mp heq), Finmap.lookup_insert_of_ne _ hk]
  | remove key =>
      obtain ⟨hres, hlook⟩ := t.remove_spec key
      refine ⟨hres.trans (h key), fun k => ?_⟩
      show (t.remove key).2.root.lookup k.toList = (m.erase key).lookup k
      rw [hlook, h k]
      by_cases hk : k = key
      · rw [if_pos (congrArg _ hk), hk, Finmap.lookup_erase]
      · rw [if_neg fun heq => hk (String.toList_inj.mp heq), Finmap.lookup_erase_ne hk]

namespace Trie.LooksUp

variable {t : Trie V} {m : StringMap V}

theorem mem_iff (h : t.LooksUp m) (key : String) : key ∈ m ↔ t.root.lookup key.toList ≠ none := by
  rw [h key, ← Finmap.lookup_isSome, Option.isSome_iff_ne_none]

/-- The entries under a prefix are those of the node that the prefix leads to. -/
theorem entriesWithPrefix_eq (t : Trie V) (pre : String) :
    t.entriesWithPrefix pre
      = ((navigateRef pre.toList t.root).map fun start =>
          start.entries.map (Node.keyed pre)).getD [] := by
  rw [entriesWithPrefix]
  cases navigateRef pre.toList t.root with
  | none => rfl
  | some start => exact Node.collectEntries_eq start pre []

theorem mem_entriesWithPrefix (h : t.LooksUp m) (pre key : String) (v : V) :
    (key, v) ∈ t.entriesWithPrefix pre ↔ m.lookup key = some v ∧ pre.toList <+: key.toList := by
  rw [entriesWithPrefix_eq, ← h key]
  -- looking up a key is going to the prefix and looking up what is left of it
  have happ : ∀ rest, key.toList = pre.toList ++ rest →
      t.root.lookup key.toList = (navigateRef pre.toList t.root).bind (·.lookup rest) := by
    intro rest heq
    rw [heq, Node.lookup_append]
  cases hnav : navigateRef pre.toList t.root with
  | none =>
      refine ⟨fun hmem => absurd hmem (by simp), ?_⟩
      rintro ⟨hlook, rest, heq⟩
      rw [happ rest heq.symm, hnav] at hlook
      exact absurd hlook (by simp)
  | some start =>
      have hord : start.Ordered := t.ordered.navigateRef hnav
      constructor
      · intro hmem
        obtain ⟨⟨rest, w⟩, hrest, heq⟩ := List.mem_map.mp hmem
        obtain ⟨rfl, rfl⟩ := Prod.mk.inj heq
        have hkey : (String.ofList (pre.toList ++ rest)).toList = pre.toList ++ rest :=
          String.toList_ofList
        refine ⟨?_, rest, hkey.symm⟩
        rw [happ rest hkey, hnav]
        exact (Node.mem_entries hord).mp hrest
      · rintro ⟨hlook, rest, heq⟩
        rw [happ rest heq.symm, hnav] at hlook
        refine List.mem_map.mpr ⟨(rest, v), (Node.mem_entries hord).mpr hlook, ?_⟩
        rw [Node.keyed, heq, String.ofList_toList]

theorem pairwise_entriesWithPrefix (t : Trie V) (pre : String) :
    (t.entriesWithPrefix pre).Pairwise (fun e e' => e.1.toList < e'.1.toList) := by
  rw [entriesWithPrefix_eq]
  cases hnav : navigateRef pre.toList t.root with
  | none => exact .nil
  | some start =>
      refine List.pairwise_map.mpr ((start.pairwise_entries (t.ordered.navigateRef hnav)).imp ?_)
      intro e e' hlt
      show (String.ofList (pre.toList ++ e.1)).toList < (String.ofList (pre.toList ++ e'.1)).toList
      rw [String.toList_ofList, String.toList_ofList]
      exact List.append_left_lt hlt

theorem keysWithPrefix_eq (t : Trie V) (pre : String) :
    t.keysWithPrefix pre = (t.entriesWithPrefix pre).map Prod.fst := by
  rw [keysWithPrefix, entriesWithPrefix]
  cases navigateRef pre.toList t.root with
  | none => rfl
  | some start => exact Node.collectKeys_eq start pre []

/-- There are as many values in the tree as keys in the map. -/
theorem size_eq (h : t.LooksUp m) (profitable : ℕ → Bool) (bridge : Node V → Arrival) :
    t.size profitable bridge = m.keys.card := by
  have hsize : t.size profitable bridge = t.root.entries.length := by
    rw [size, Node.countNodesPar_eq, parallelIfProfitable_self, Node.countNodes_eq]
  -- nodes that were emptied have no entry, so the entries are the keys
  have hkeys : m.keys = (t.root.entries.map fun e => String.ofList e.1).toFinset := by
    ext key
    rw [Finmap.mem_keys, h.mem_iff, List.mem_toFinset, List.mem_map, ← Option.isSome_iff_ne_none,
      Option.isSome_iff_exists]
    constructor
    · rintro ⟨v, hv⟩
      exact ⟨(key.toList, v), (Node.mem_entries t.ordered).mpr hv, String.ofList_toList⟩
    · rintro ⟨⟨path, v⟩, hmem, rfl⟩
      refine ⟨v, ?_⟩
      rw [String.toList_ofList]
      exact (Node.mem_entries t.ordered).mp hmem
  have hnodup : (t.root.entries.map fun e => String.ofList e.1).Nodup := by
    refine List.pairwise_map.mpr ((t.root.pairwise_entries t.ordered).imp fun hlt heq => ?_)
    exact absurd (String.ofList_inj.mp heq) (ne_of_lt hlt)
  rw [hsize, hkeys, List.toFinset_card_of_nodup hnodup, List.length_map]

theorem longestPrefixOf_spec (h : t.LooksUp m) (s : String) :
    ∃ r, t.longestPrefixOf s = some r ∧ m.LongestPrefix s r := by
  rw [longestPrefixOf]
  rcases Node.longestEnd_spec t.root (if t.root.value.isSome then some 0 else none) 0 s.toList with
    ⟨hend, hnone⟩ | ⟨key, hkey, hend⟩
  -- no stored key but possibly the empty one, whose value is at the root
  · by_cases hv : t.root.value.isSome
    · rw [hend, if_pos hv]
      refine ⟨some "", ?_, (h.mem_iff "").mpr (Option.isSome_iff_ne_none.mp hv), ⟨s.toList, rfl⟩,
        fun k hk hp => ?_⟩
      · exact congrArg (Option.map _) (Node.sliceTo_bytes (List.nil_prefix (l := s.toList)))
      · have hnil : k.toList = [] := by_contra fun hne => (h.mem_iff k).mp hk (hnone _ hp hne)
        simp [hnil]
    · rw [hend, if_neg hv]
      refine ⟨none, rfl, fun k hk hp => (h.mem_iff k).mp hk ?_⟩
      by_cases hnil : k.toList = []
      · rw [hnil]
        exact Option.not_isSome_iff_eq_none.mp hv
      · exact hnone _ hp hnil
  · rw [hend, Nat.zero_add]
    refine ⟨some (String.ofList key), ?_, (h.mem_iff _).mpr ?_, ?_, fun k hk hp => ?_⟩
    · show (sliceTo s.toList (Node.bytes key)).map _ = _
      rw [Node.sliceTo_bytes hkey.pre]
      rfl
    · rw [String.toList_ofList]
      exact hkey.stored
    · rw [String.toList_ofList]
      exact hkey.pre
    · rw [String.toList_ofList]
      exact hkey.longest _ hp ((h.mem_iff k).mp hk)

theorem represents (h : t.LooksUp m) : t.Represents m where
  get := h
  has key := by
    rw [h.mem_iff, has, Option.isSome_iff_ne_none]
    rfl
  size := h.size_eq
  entries := h.mem_entriesWithPrefix
  ascending := pairwise_entriesWithPrefix t
  keys := keysWithPrefix_eq t
  longest := h.longestPrefixOf_spec

end Trie.LooksUp

/-- **The trie is a finite map from strings.** Along every sequence of insertions and removals both
    give the same answers, and afterwards every query of the trie answers as the map would. -/
theorem trie_refines (ops : List (Op V)) :
    (Refine.exec Trie.apply Trie.empty ops).1 = (Refine.exec StringMap.apply ∅ ops).1 ∧
      (Refine.exec Trie.apply Trie.empty ops).2.Represents
        (Refine.exec StringMap.apply ∅ ops).2 := by
  have hempty : Trie.LooksUp (Trie.empty : Trie V) ∅ := fun key => by
    rw [Finmap.lookup_empty]
    exact Node.lookup_default key.toList
  obtain ⟨hres, hlook⟩ := Trie.apply_simulates.exec hempty ops
  exact ⟨hres, hlook.represents⟩

end IdEffect.Collections
