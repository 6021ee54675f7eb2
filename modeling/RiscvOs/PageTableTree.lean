import RiscvOs.PageTable
import Mathlib.Data.List.Induction
set_option autoImplicit false

/-!
The tables of all address spaces as one forest over the pages of the allocator.
`node (r, is)` is the page of the table reached from root `r` by the indices `is`;
the invariant says that memory spells out this forest, that no page is used twice,
and that the leaves spell out one abstract map for each root.
-/

namespace RiscvOs.Vm
open WordMemory PageAlloc

/-- What a valid leaf says: a physical page and flags that include `PTE_V`. -/
structure Entry where
  ppn : BitVec 52
  flags : BitVec 10
  valid : flags.getLsbD 0 = true

def Entry.pte (e : Entry) : Word := e.ppn.setWidth 64 <<< 10 ||| e.flags.setWidth 64

/-- The base address of the physical page. -/
def Entry.base (e : Entry) : Word := e.ppn.setWidth 64 <<< 12

/-- The word of a leaf entry; an unmapped page has the word 0. -/
def leafWord : Option Entry → Word
  | some e => e.pte
  | none => 0#64

/-- An address space, from virtual page numbers to entries. -/
abbrev PageMap := Nat → Option Entry

theorem Entry.pteValid_pte (e : Entry) : pteValid e.pte = true := by
  have h : (e.pte &&& pteV).getLsbD 0 = true := by
    simp [pte, pteV, e.valid]
  simp only [pteValid, bne_iff_ne, ne_eq]
  intro hz
  rw [hz] at h
  simp at h

theorem Entry.pte2pa_pte (e : Entry) : pte2pa e.pte = e.base := by
  have hp := e.ppn.isLt
  have hf := e.flags.isLt
  apply pte2pa_or
  · rw [BitVec.toNat_setWidth]
    omega
  · rw [BitVec.toNat_setWidth]
    omega

theorem pteValid_leafWord (x : Option Entry) : pteValid (leafWord x) = x.isSome := by
  cases x with
  | none => exact pteValid_zero
  | some e => simp [leafWord, e.pteValid_pte]

abbrev Nodes := Word × List Nat → Option Word

/-- The table that holds the leaf of page `v`, and the leaf's index in it. -/
def leafPath (v : Nat) : List Nat := [v / 2^18, v / 2^9 % 512]

structure Forest (mem : Mem) (roots : Word → Prop) (node : Nodes) : Prop where
  root : ∀ r, roots r → node (r, []) = some r
  dom : ∀ r is p, node (r, is) = some p → roots r ∧ is.length ≤ 2
  parent : ∀ r is i q, node (r, is ++ [i]) = some q → ∃ p, node (r, is) = some p
  entry : ∀ r is p i, node (r, is) = some p → is.length < 2 → i < 512 →
    mem (slot p i) = match node (r, is ++ [i]) with
      | some q => pa2pte q ||| pteV
      | none => 0#64
  inj : ∀ k k' p, node k = some p → node k' = some p → k = k'

/-- The leaves under `node` hold the entries of the maps. -/
def Leaves (mem : Mem) (maps : Word → Option PageMap) (node : Nodes) : Prop :=
  ∀ r m, maps r = some m → ∀ v < 2^27,
    match node (r, leafPath v) with
    | some p => mem (slot p (v % 512)) = leafWord (m v)
    | none => m v = none

/-- The word of the leaf for page `v` of the root `r`; 0 where there is no table for it. -/
def leafAt (mem : Mem) (node : Nodes) (r : Word) (v : Nat) : Word :=
  match node (r, leafPath v) with
  | some p => mem (slot p (v % 512))
  | none => 0#64

theorem leafAt_some {mem : Mem} {node : Nodes} {r p : Word} {v : Nat} (h : node (r, leafPath v) = some p) :
    leafAt mem node r v = mem (slot p (v % 512)) := by
  rw [leafAt, h]

theorem leafAt_none {mem : Mem} {node : Nodes} {r : Word} {v : Nat} (h : node (r, leafPath v) = none) :
    leafAt mem node r v = 0#64 := by
  rw [leafAt, h]

theorem leafPath_inj {v w : Nat} (h : leafPath v = leafPath w) (hlow : v % 512 = w % 512) : v = w := by
  simp only [leafPath, List.cons.injEq] at h
  omega

theorem leafWord_eq_zero {x : Option Entry} : leafWord x = 0#64 ↔ x = none := by
  constructor
  · intro hz
    have hv := pteValid_leafWord x
    rw [hz, pteValid_zero] at hv
    exact Option.isNone_iff_eq_none.mp (Option.isSome_eq_false_iff.mp hv.symm)
  · rintro rfl
    rfl

theorem leaves_iff {mem : Mem} {maps : Word → Option PageMap} {node : Nodes} : Leaves mem maps node ↔
    ∀ r m, maps r = some m → ∀ v < 2^27, leafAt mem node r v = leafWord (m v) := by
  refine forall₂_congr fun r m => forall₃_congr fun _ v _ => ?_
  cases hn : node (r, leafPath v) with
  | none =>
    rw [leafAt_none hn]
    exact leafWord_eq_zero.symm.trans eq_comm
  | some p => rw [leafAt_some hn]

/-- What a store of `v` at `slot p i` of the table `k`, into a memory where the page `q`
has just been cleared, leaves in the words of the tables and of `q`. -/
structure LinkStore (mem mem' : Mem) (node : Nodes) (k : Word × List Nat) (i : Nat) (q v : Word) :
    Prop where
  tables : ∀ k' p' j, node k' = some p' → j < 512 →
    mem' (slot p' j) = if k' = k ∧ j = i then v else mem (slot p' j)
  fresh : ∀ j < 512, mem' (slot q j) = 0#64
  unused : ∀ k', node k' ≠ some q

theorem update_node_cases {node : Nodes} {k k' : Word × List Nat} {q p : Word}
    (h : Function.update node k (some q) k' = some p) : (k' = k ∧ p = q) ∨ node k' = some p := by
  by_cases he : k' = k
  · subst he
    rw [Function.update_self] at h
    exact .inl ⟨rfl, (Option.some.inj h).symm⟩
  · rw [Function.update_of_ne he] at h
    exact .inr h

section Link

variable {mem mem' : Mem} {roots : Word → Prop} {node : Nodes} {r p q : Word} {is : List Nat} {i : Nat}

theorem update_node_of_some {k k' : Word × List Nat} (hnone : node k = none)
    (hk : node k' = some p) : Function.update node k (some q) k' = some p := by
  rw [Function.update_of_ne]
  · exact hk
  · intro he
    rw [he, hnone] at hk
    cases hk

theorem Forest.inj_update (h : Forest mem roots node) {c : Word × List Nat}
    (hq : ∀ k, node k ≠ some q) (k k' : Word × List Nat) (p : Word)
    (hk : Function.update node c (some q) k = some p)
    (hk' : Function.update node c (some q) k' = some p) : k = k' := by
  cases update_node_cases hk with
  | inl hnew =>
    obtain ⟨rfl, rfl⟩ := hnew
    cases update_node_cases hk' with
    | inl hnew' => exact hnew'.1.symm
    | inr hk' => exact absurd hk' (hq k')
  | inr hk =>
    cases update_node_cases hk' with
    | inl hnew' =>
      rw [hnew'.2] at hk
      exact absurd hk (hq k)
    | inr hk' => exact h.inj _ _ _ hk hk'

theorem Forest.link_entry (h : Forest mem roots node) (hnone : node (r, is ++ [i]) = none)
    (hstore : LinkStore mem mem' node (r, is) i q (pa2pte q ||| pteV))
    {r' p' : Word} {is' : List Nat} {j : Nat}
    (hk : Function.update node (r, is ++ [i]) (some q) (r', is') = some p')
    (hlen : is'.length < 2) (hj : j < 512) :
    mem' (slot p' j) = match Function.update node (r, is ++ [i]) (some q) (r', is' ++ [j]) with
      | some c => pa2pte c ||| pteV
      | none => 0#64 := by
  cases update_node_cases hk with
  | inl hnew =>
    -- The new table: nothing hangs below it yet.
    obtain ⟨he, rfl⟩ := hnew
    cases he
    have hchild : node (r, (is ++ [i]) ++ [j]) = none := by
      cases hc : node (r, (is ++ [i]) ++ [j]) with
      | none => rfl
      | some c =>
        obtain ⟨p', hp'⟩ := h.parent _ _ _ _ hc
        rw [hnone] at hp'
        cases hp'
    rw [Function.update_of_ne (by simp), hchild]
    exact hstore.fresh j hj
  | inr hk =>
    rw [hstore.tables _ _ _ hk hj]
    by_cases he : (r', is') = (r, is) ∧ j = i
    · obtain ⟨he, rfl⟩ := he
      cases he
      simp
    · rw [if_neg he, Function.update_of_ne]
      · exact h.entry r' is' p' j hk hlen hj
      · intro hc
        simp only [Prod.mk.injEq, List.append_singleton_inj] at hc
        exact he ⟨by simp [hc.1, hc.2.1], hc.2.2⟩

theorem Forest.link (h : Forest mem roots node) (hp : node (r, is) = some p)
    (hlen : is.length < 2) (hnone : node (r, is ++ [i]) = none)
    (hstore : LinkStore mem mem' node (r, is) i q (pa2pte q ||| pteV)) :
    Forest mem' roots (Function.update node (r, is ++ [i]) (some q)) := by
  refine ⟨?_, ?_, ?_, ?_, ?_⟩
  · intro r' hr'
    exact update_node_of_some hnone (h.root r' hr')
  · intro r' is' p' hk
    cases update_node_cases hk with
    | inl hnew =>
      cases hnew.1
      have hl : (is ++ [i]).length ≤ 2 := by simp; omega
      exact ⟨(h.dom r is p hp).1, hl⟩
    | inr hk => exact h.dom r' is' p' hk
  · intro r' is' i' q' hk
    cases update_node_cases hk with
    | inl hnew =>
      have he := hnew.1
      simp only [Prod.mk.injEq, List.append_singleton_inj] at he
      obtain ⟨rfl, rfl, rfl⟩ := he
      exact ⟨p, update_node_of_some hnone hp⟩
    | inr hk =>
      obtain ⟨p', hp'⟩ := h.parent _ _ _ _ hk
      exact ⟨p', update_node_of_some hnone hp'⟩
  · intro r' is' p' j hk hlen' hj
    exact h.link_entry hnone hstore hk hlen' hj
  · exact h.inj_update hstore.unused

/-- A fresh leaf table maps nothing. -/
theorem leafAt_link {v : Word} (hlen : is.length < 2) (hnone : node (r, is ++ [i]) = none)
    (hstore : LinkStore mem mem' node (r, is) i q v) (r' : Word) (w : Nat) :
    leafAt mem' (Function.update node (r, is ++ [i]) (some q)) r' w = leafAt mem node r' w := by
  have hidx : w % 512 < 512 := Nat.mod_lt _ (by decide)
  by_cases he : (r', leafPath w) = (r, is ++ [i])
  · have hold : node (r', leafPath w) = none := he ▸ hnone
    have hnew : Function.update node (r, is ++ [i]) (some q) (r', leafPath w) = some q := by
      rw [he, Function.update_self]
    rw [leafAt_some hnew, leafAt_none hold]
    exact hstore.fresh _ hidx
  · have hsame := Function.update_of_ne he (some q) node
    cases hn : node (r', leafPath w) with
    | none => rw [leafAt_none (hsame.trans hn), leafAt_none hn]
    | some p' =>
      rw [leafAt_some (hsame.trans hn), leafAt_some hn, hstore.tables _ _ _ hn hidx, if_neg]
      intro hc
      have hlen' := congrArg (fun k => k.2.length) hc.1
      simp [leafPath] at hlen'
      omega

end Link

/-- The allocator and the tables it has given out, whatever the leaves say. -/
structure Tables (lo : Nat) (s : Mm) (roots : Word → Prop) (node : Nodes) (chain held : List Word) : Prop where
  split : Split lo s chain held
  forest : Forest s.mem roots node
  owned : ∀ k p, node k = some p → p ∈ held

namespace Tables

variable {lo : Nat} {s : Mm} {roots : Word → Prop} {node : Nodes} {chain held : List Word}

theorem aligned (h : Tables lo s roots node chain held) {k : Word × List Nat} {p : Word}
    (hp : node k = some p) : Aligned p :=
  (h.split.isPage_held (h.owned k p hp)).aligned

theorem slot_ne_zero (h : Tables lo s roots node chain held) (hlo : 0 < lo)
    {k : Word × List Nat} {p : Word} {i : Nat} (hp : node k = some p) (hi : i < 512) :
    slot p i ≠ 0#64 := by
  intro hz
  have hn := slot_toNat (h.aligned hp) hi
  have hpage := (h.split.isPage_held (h.owned k p hp)).1
  rw [hz, BitVec.toNat_zero] at hn
  omega

theorem alloc_frame {q : Word} {qs : List Word} (h : Tables lo s roots node (q :: qs) held)
    {k : Word × List Nat} {p : Word} {i : Nat} (hp : node k = some p) (hi : i < 512) :
    (allocPage s).2.mem (slot p i) = s.mem (slot p i) := by
  have hq : IsPage lo q := h.split.isPage_chain (by simp)
  have hne : p ≠ q := (h.split.ne_of_mem (p := q) (by simp) (h.owned k p hp)).symm
  simp only [h.split.alloc_eq]
  exact clearPage_of_ne s.mem hq.aligned (h.aligned hp) hi hne

theorem alloc_clear {q : Word} {qs : List Word} (h : Tables lo s roots node (q :: qs) held)
    {i : Nat} (hi : i < 512) : (allocPage s).2.mem (slot q i) = 0#64 := by
  have hq : IsPage lo q := h.split.isPage_chain (by simp)
  simp only [h.split.alloc_eq]
  exact clearPage_slot hq.aligned hi

theorem alloc_unused {q : Word} {qs : List Word} (h : Tables lo s roots node (q :: qs) held)
    (k : Word × List Nat) : node k ≠ some q := by
  intro hk
  exact h.split.ne_of_mem (p := q) (by simp) (h.owned k q hk) rfl

theorem slot_eq_iff (h : Tables lo s roots node chain held) {k k' : Word × List Nat}
    {p p' : Word} {i j : Nat} (hp : node k = some p) (hp' : node k' = some p')
    (hi : i < 512) (hj : j < 512) : slot p' j = slot p i ↔ k' = k ∧ j = i := by
  rw [slot_inj (h.aligned hp') (h.aligned hp) hj hi]
  constructor
  · intro he
    obtain ⟨rfl, rfl⟩ := he
    exact ⟨h.forest.inj _ _ _ hp' hp, rfl⟩
  · intro he
    obtain ⟨rfl, rfl⟩ := he
    rw [hp] at hp'
    exact ⟨(Option.some.inj hp').symm, rfl⟩

/-- The memory after `walk` has allocated the table `q` and linked it at `slot p i`. -/
theorem linkStore {q p : Word} {qs : List Word} {k : Word × List Nat} {i : Nat}
    (h : Tables lo s roots node (q :: qs) held) (hp : node k = some p) (hi : i < 512)
    (v : Word) :
    LinkStore s.mem ((allocPage s).2.store (slot p i) v).mem node k i q v := by
  refine ⟨?_, ?_, h.alloc_unused⟩
  · intro k' p' j hp' hj
    by_cases he : k' = k ∧ j = i
    · obtain ⟨rfl, rfl⟩ := he
      rw [hp] at hp'
      cases hp'
      simp
    · rw [if_neg he, Mm.store_mem, Function.update_of_ne fun hs => he ((h.slot_eq_iff hp hp' hi hj).mp hs)]
      exact h.alloc_frame hp' hj
  · intro j hj
    have hq : IsPage lo q := h.split.isPage_chain (by simp)
    rw [Mm.store_mem, Function.update_of_ne]
    · exact h.alloc_clear hj
    · intro hs
      obtain ⟨rfl, _⟩ := (slot_inj hq.aligned (h.aligned hp) hj hi).mp hs
      exact h.alloc_unused k hp

/-- Linking a fresh table. -/
theorem link {q p r : Word} {qs : List Word} {is : List Nat} {i : Nat}
    (h : Tables lo s roots node (q :: qs) held) (hp : node (r, is) = some p)
    (hlen : is.length < 2) (hi : i < 512) (hnone : node (r, is ++ [i]) = none) :
    Tables lo ((allocPage s).2.store (slot p i) (pa2pte q ||| pteV)) roots
      (Function.update node (r, is ++ [i]) (some q)) qs (q :: held) := by
  have hstore := h.linkStore hp hi (pa2pte q ||| pteV)
  refine ⟨h.split.alloc.store (by simp [h.owned _ _ hp]) hi _, h.forest.link hp hlen hnone hstore, ?_⟩
  intro k p' hk
  cases update_node_cases hk with
  | inl hnew => simp [hnew.2]
  | inr hk => simp [h.owned _ _ hk]

/-- Writing a leaf. -/
theorem setLeaf (h : Tables lo s roots node chain held) {r p : Word} {v : Nat}
    (hp : node (r, leafPath v) = some p) (w : Word) :
    Tables lo (s.store (slot p (v % 512)) w) roots node chain held ∧
    ∀ r' v', leafAt (s.store (slot p (v % 512)) w).mem node r' v' =
      if r' = r ∧ v' = v then w else leafAt s.mem node r' v' := by
  have hidx (v : Nat) : v % 512 < 512 := Nat.mod_lt _ (by decide)
  refine ⟨⟨h.split.store (h.owned _ _ hp) (hidx v) w, ⟨h.forest.root, h.forest.dom, h.forest.parent, ?_,
    h.forest.inj⟩, h.owned⟩, ?_⟩
  · intro r' is p' i hk hlen hi
    rw [Mm.store_mem, Function.update_of_ne]
    · exact h.forest.entry r' is p' i hk hlen hi
    · intro hs
      obtain ⟨hkey, _⟩ := (h.slot_eq_iff hp hk (hidx v) hi).mp hs
      cases hkey
      simp [leafPath] at hlen
  · intro r' v'
    by_cases he : r' = r ∧ v' = v
    · obtain ⟨rfl, rfl⟩ := he
      rw [if_pos ⟨rfl, rfl⟩, leafAt_some hp, Mm.store_mem, Function.update_self]
    · rw [if_neg he]
      cases hn : node (r', leafPath v') with
      | none => rw [leafAt_none hn, leafAt_none hn]
      | some p' =>
        rw [leafAt_some hn, leafAt_some hn, Mm.store_mem, Function.update_of_ne]
        intro hs
        obtain ⟨hkey, hlow⟩ := (h.slot_eq_iff hp hn (hidx v) (hidx v')).mp hs
        exact he ⟨congrArg Prod.fst hkey, leafPath_inj (congrArg Prod.snd hkey) hlow⟩

end Tables

/-- How the tree grows: tables from the front of the free list are linked at keys that `P` allows. -/
inductive Grows (P : Word × List Nat → Prop) :
    Nodes → List Word → List Word → Nodes → List Word → List Word → Prop
  | refl {node : Nodes} {chain held : List Word} : Grows P node chain held node chain held
  | link {node node' : Nodes} {k : Word × List Nat} {q : Word} {qs held chain' held' : List Word}
      (hk : P k) (hnone : node k = none)
      (h : Grows P (Function.update node k (some q)) qs (q :: held) node' chain' held') :
      Grows P node (q :: qs) held node' chain' held'

section Grows

variable {P Q : Word × List Nat → Prop} {node node' node'' : Nodes}
  {chain chain' chain'' held held' held'' : List Word}

/-- What every new table preserves, the growth of the tree preserves. -/
theorem Grows.invariant {I : Nodes → List Word → List Word → Prop}
    (hI : ∀ node k q qs held, P k → node k = none → I node (q :: qs) held →
      I (Function.update node k (some q)) qs (q :: held))
    (h : Grows P node chain held node' chain' held') (hs : I node chain held) :
    I node' chain' held' := by
  induction h with
  | refl => exact hs
  | link hk hnone _ ih => exact ih (hI _ _ _ _ _ hk hnone hs)

theorem Grows.trans (h : Grows P node chain held node' chain' held')
    (h' : Grows P node' chain' held' node'' chain'' held'') :
    Grows P node chain held node'' chain'' held'' := by
  induction h with
  | refl => exact h'
  | link hk hnone _ ih => exact .link hk hnone (ih h')

end Grows

/-- The indices `walk` uses from `level` down to level 1. -/
def walkPath (va : Word) : Nat → List Nat
  | 0 => []
  | level+1 => (px (level+1) va).toNat :: walkPath va level

theorem walkPath_two {va : Word} (hva : va.toNat < 2^38) :
    walkPath va 2 = leafPath (va.toNat / 4096) := by
  simp only [walkPath, leafPath, px_toNat]
  congr 1
  · omega
  · congr 1
    omega

theorem px_zero (va : Word) : (px 0 va).toNat = va.toNat / 4096 % 512 := px_toNat 0 va

namespace Tables

variable {lo : Nat} {s : Mm} {roots : Word → Prop} {node : Nodes} {chain held : List Word}

theorem entry_valid (h : Tables lo s roots node chain held) {r p : Word} {is : List Nat} {i : Nat}
    (hp : node (r, is) = some p) (hlen : is.length < 2) (hi : i < 512) :
    pteValid (s.mem (slot p i)) = (node (r, is ++ [i])).isSome := by
  rw [h.forest.entry r is p i hp hlen hi]
  cases node (r, is ++ [i]) with
  | none => exact pteValid_zero
  | some q => exact pteValid_or _

theorem entry_pa (h : Tables lo s roots node chain held) {r p q : Word} {is : List Nat} {i : Nat}
    (hp : node (r, is) = some p) (hlen : is.length < 2) (hi : i < 512)
    (hq : node (r, is ++ [i]) = some q) : pte2pa (s.mem (slot p i)) = q := by
  rw [h.forest.entry r is p i hp hlen hi, hq]
  exact pte2pa_pa2pte (h.aligned hq)

theorem children_none (h : Tables lo s roots node chain held) {r : Word} {is : List Nat}
    (js : List Nat) (hnone : node (r, is) = none) : node (r, is ++ js) = none := by
  induction js using List.reverseRecOn with
  | nil => simpa using hnone
  | append_singleton js j ih =>
    cases hc : node (r, is ++ (js ++ [j])) with
    | none => rfl
    | some c =>
      obtain ⟨p, hp⟩ := h.forest.parent r (is ++ js) j c (by simpa using hc)
      rw [ih] at hp
      cases hp

/-- At a table whose entry is there, the loop of `walk` goes on with the table below. -/
theorem walkFrom_cons (h : Tables lo s roots node chain held) {va : Word} {alloc : Bool} {r pt q : Word}
    {is : List Nat} {level : Nat} (hp : node (r, is) = some pt) (hlen : is.length + (level + 1) = 2)
    (hq : node (r, is ++ [(px (level+1) va).toNat]) = some q) :
    walkFrom va alloc (level+1) pt s = walkFrom va alloc level q s := by
  have hi := px_lt (level+1) va
  have hv := h.entry_valid hp (by omega) hi
  rw [hq, Option.isSome_some] at hv
  simp only [walkFrom, hv, if_true, h.entry_pa hp (by omega) hi hq]

/-- Where the table below is missing, the loop fails unless it can allocate a page. -/
theorem walkFrom_stops (h : Tables lo s roots node chain held) {va : Word} {alloc : Bool} {r pt : Word}
    {is : List Nat} {level : Nat} (hp : node (r, is) = some pt) (hlen : is.length + (level + 1) = 2)
    (hq : node (r, is ++ [(px (level+1) va).toNat]) = none) (hno : alloc = false ∨ chain = []) :
    walkFrom va alloc (level+1) pt s = (0#64, s) := by
  have hv := h.entry_valid hp (by omega) (px_lt (level+1) va)
  rw [hq, Option.isSome_none] at hv
  cases alloc with
  | false => simp [walkFrom, hv]
  | true =>
    obtain rfl := hno.resolve_left (by simp)
    simp [walkFrom, hv, h.split.alloc_nil]

/-- With a page on the free list it goes on there. -/
theorem walkFrom_links {q : Word} {qs : List Word} (h : Tables lo s roots node (q :: qs) held) {va r pt : Word}
    {is : List Nat} {level : Nat} (hp : node (r, is) = some pt) (hlen : is.length + (level + 1) = 2)
    (hq : node (r, is ++ [(px (level+1) va).toNat]) = none) :
    walkFrom va true (level+1) pt s = walkFrom va true level q
      ((allocPage s).2.store (slot pt (px (level+1) va).toNat) (pa2pte q ||| pteV)) := by
  have hv := h.entry_valid hp (by omega) (px_lt (level+1) va)
  rw [hq, Option.isSome_none] at hv
  have hfst : (allocPage s).1 = q := by rw [h.split.alloc_eq]
  have hne : q ≠ 0#64 := h.split.linked.2.1
  simp [walkFrom, hv, hfst, hne]

/-- Without allocation `walk` finds the leaf slot exactly when its table exists. -/
theorem walkFrom_lookup (h : Tables lo s roots node chain held) (va : Word) {r pt : Word}
    {is : List Nat} {level : Nat} (hp : node (r, is) = some pt) (hlen : is.length + level = 2) :
    walkFrom va false level pt s = (match node (r, is ++ walkPath va level) with
      | some p => slot p (px 0 va).toNat
      | none => 0#64, s) := by
  induction level generalizing pt is with
  | zero => simp [walkFrom, walkPath, hp]
  | succ level ih =>
    rw [walkPath, List.append_cons]
    cases hq : node (r, is ++ [(px (level+1) va).toNat]) with
    | none =>
      rw [h.walkFrom_stops hp hlen hq (.inl rfl), h.children_none _ hq]
    | some q =>
      rw [h.walkFrom_cons hp hlen hq]
      exact ih hq (by simp; omega)

/-- With allocation the missing tables on the path are linked in; no leaf changes. The result is
the leaf slot in the extended tree, or null when the free list ran out before the path ended. -/
theorem walkFrom_alloc (h : Tables lo s roots node chain held) (va : Word) {r pt : Word}
    {is : List Nat} {level : Nat} {P : Word × List Nat → Prop} (hp : node (r, is) = some pt)
    (hlen : is.length + level = 2) (hP : ∀ js, js <+: walkPath va level → P (r, is ++ js)) :
    ∃ node' chain' held', Tables lo (walkFrom va true level pt s).2 roots node' chain' held' ∧
      Grows P node chain held node' chain' held' ∧
      (∀ r' v, leafAt (walkFrom va true level pt s).2.mem node' r' v = leafAt s.mem node r' v) ∧
      ((∃ p, node' (r, is ++ walkPath va level) = some p ∧
          (walkFrom va true level pt s).1 = slot p (px 0 va).toNat) ∨
        (walkFrom va true level pt s).1 = 0#64 ∧ chain' = [] ∧ ∃ k, P k ∧ node' k = none) := by
  induction level generalizing pt is s node chain held with
  | zero =>
    refine ⟨node, chain, held, h, .refl, fun _ _ => rfl, .inl ⟨pt, ?_, rfl⟩⟩
    simpa [walkPath] using hp
  | succ level ih =>
    have hi := px_lt (level+1) va
    have hlen' : (is ++ [(px (level+1) va).toNat]).length + level = 2 := by simp; omega
    have hP' (js : List Nat) (hjs : js <+: walkPath va level) :
        P (r, (is ++ [(px (level+1) va).toNat]) ++ js) := by
      have hcons := hP ((px (level+1) va).toNat :: js) (List.prefix_cons_inj _ |>.mpr hjs)
      simpa using hcons
    rw [walkPath, List.append_cons]
    cases hq : node (r, is ++ [(px (level+1) va).toNat]) with
    | some q =>
      rw [h.walkFrom_cons hp hlen hq]
      exact ih h hq hlen' hP'
    | none =>
      have hk : P (r, is ++ [(px (level+1) va).toNat]) := by simpa using hP' [] List.nil_prefix
      cases chain with
      | nil =>
        rw [h.walkFrom_stops hp hlen hq (.inr rfl)]
        exact ⟨node, [], held, h, .refl, fun _ _ => rfl, .inr ⟨rfl, rfl, _, hk, hq⟩⟩
      | cons q qs =>
        rw [h.walkFrom_links hp hlen hq]
        have hsame := leafAt_link (by omega) hq (h.linkStore hp hi (pa2pte q ||| pteV))
        obtain ⟨node', chain', held', hinv, hgrow, hleaves, hres⟩ :=
          ih (h.link hp (by omega) hi hq) (Function.update_self ..) hlen' hP'
        exact ⟨node', chain', held', hinv, .link hk hq hgrow, fun r' v => (hleaves r' v).trans (hsame r' v), hres⟩

end Tables

/-- Allocator, page tables and abstract maps together. `others` are the pages held by
other clients of the allocator. -/
structure VmInv (lo : Nat) (s : Mm) (maps : Word → Option PageMap) (others : List Word)
    (node : Nodes) (chain held : List Word) : Prop where
  split : Split lo s chain held
  forest : Forest s.mem (fun r => (maps r).isSome) node
  owned : ∀ k p, node k = some p → p ∈ held ∧ p ∉ others
  clients : others.Nodup ∧ ∀ p ∈ others, p ∈ held
  leaves : Leaves s.mem maps node
  bounded : ∀ r m v, maps r = some m → 2^26 ≤ v → m v = none

namespace VmInv

variable {lo : Nat} {s t : Mm} {maps maps' : Word → Option PageMap} {others : List Word}
  {node node' : Nodes} {chain chain' held held' : List Word}

theorem tables (h : VmInv lo s maps others node chain held) :
    Tables lo s (fun r => (maps r).isSome) node chain held :=
  ⟨h.split, h.forest, fun k p hp => (h.owned k p hp).1⟩

theorem aligned (h : VmInv lo s maps others node chain held) {k : Word × List Nat} {p : Word}
    (hp : node k = some p) : Aligned p := h.tables.aligned hp

/-- Memory may change anywhere outside the tables. -/
theorem frame (h : VmInv lo s maps others node chain held) {others' : List Word}
    (hsplit : Split lo t chain' held')
    (hmem : ∀ k p i, node k = some p → i < 512 → t.mem (slot p i) = s.mem (slot p i))
    (howned : ∀ k p, node k = some p → p ∈ held' ∧ p ∉ others')
    (hclients : others'.Nodup ∧ ∀ p ∈ others', p ∈ held') :
    VmInv lo t maps others' node chain' held' := by
  refine ⟨hsplit, ⟨h.forest.root, h.forest.dom, h.forest.parent, ?_, h.forest.inj⟩, howned, hclients,
    ?_, h.bounded⟩
  · intro r is p i hp hlen hi
    rw [hmem _ _ _ hp hi]
    exact h.forest.entry r is p i hp hlen hi
  · intro r m hm v hv
    have hl := h.leaves r m hm v hv
    cases hn : node (r, leafPath v) with
    | none => simpa [hn] using hl
    | some p =>
      simp only [hn] at hl ⊢
      rw [hmem _ _ _ hn (Nat.mod_lt _ (by decide))]
      exact hl

theorem setMap_isSome {r : Word} {m : PageMap} (hm : maps r = some m) (m' : PageMap) (r' : Word) :
    (Function.update maps r (some m') r').isSome = (maps r').isSome := by
  by_cases hr : r' = r
  · subst hr
    simp [hm]
  · rw [Function.update_of_ne hr]

theorem setMap_elsewhere {r r' : Word} {m m' : PageMap} {v v' : Nat} {x : Option Entry}
    (hm : maps r = some m) (hne : ¬(r' = r ∧ v' = v))
    (hm' : Function.update maps r (some (Function.update m v x)) r' = some m') :
    ∃ m₀, maps r' = some m₀ ∧ m' v' = m₀ v' := by
  by_cases hr : r' = r
  · subst hr
    rw [Function.update_self] at hm'
    cases hm'
    have hv : v' ≠ v := fun hv => hne ⟨rfl, hv⟩
    exact ⟨m, hm, Function.update_of_ne hv x m⟩
  · rw [Function.update_of_ne hr] at hm'
    exact ⟨m', hm', rfl⟩

/-- New tables come from the free list, so no other client holds them. -/
theorem rebuild {P : Word × List Nat → Prop} (h : VmInv lo s maps others node chain held)
    (ht : Tables lo t (fun r => (maps' r).isSome) node' chain' held')
    (hgrow : Grows P node chain held node' chain' held')
    (hleaves : ∀ r m, maps' r = some m → ∀ v < 2^27, leafAt t.mem node' r v = leafWord (m v))
    (hbounded : ∀ r m v, maps' r = some m → 2^26 ≤ v → m v = none) :
    VmInv lo t maps' others node' chain' held' := by
  have hall := hgrow.invariant (I := fun node chain held => (∀ k p, node k = some p → p ∉ others) ∧
      (∀ p ∈ others, p ∈ held) ∧ ∀ p ∈ chain, p ∉ others) ?_
      ⟨fun k p hp => (h.owned k p hp).2, h.clients.2,
        fun p hp ho => h.split.ne_of_mem hp (h.clients.2 p ho) rfl⟩
  · exact ⟨ht.split, ht.forest, fun k p hp => ⟨ht.owned k p hp, hall.1 k p hp⟩, ⟨h.clients.1, hall.2.1⟩,
      leaves_iff.mpr hleaves, hbounded⟩
  · rintro node k q qs held _ _ ⟨hown, hheld, hchain⟩
    rw [List.forall_mem_cons] at hchain
    refine ⟨?_, fun p hp => List.mem_cons_of_mem q (hheld p hp), hchain.2⟩
    intro k' p hk'
    cases update_node_cases hk' with
    | inl hnew => exact hnew.2 ▸ hchain.1
    | inr hk' => exact hown k' p hk'

/-- Writing a leaf changes one page of one map. -/
theorem setLeaf (h : VmInv lo s maps others node chain held) {r p : Word} {m : PageMap} {v : Nat}
    (hm : maps r = some m) (hv : v < 2^26) (hp : node (r, leafPath v) = some p) (x : Option Entry) :
    VmInv lo (s.store (slot p (v % 512)) (leafWord x))
      (Function.update maps r (some (Function.update m v x))) others node chain held := by
  obtain ⟨ht, hleaf⟩ := h.tables.setLeaf hp (leafWord x)
  refine h.rebuild (P := fun _ => True) ?_ .refl ?_ ?_
  · simp only [setMap_isSome hm]
    exact ht
  · intro r' m' hm' v' hv'
    rw [hleaf]
    by_cases he : r' = r ∧ v' = v
    · obtain ⟨rfl, rfl⟩ := he
      rw [Function.update_self] at hm'
      cases hm'
      simp
    · obtain ⟨m₀, hm₀, hval⟩ := setMap_elsewhere hm he hm'
      rw [if_neg he, hval, leaves_iff.mp h.leaves r' m₀ hm₀ v' hv']
  · intro r' m' v' hm' hv'
    have hne : v' ≠ v := by omega
    obtain ⟨m₀, hm₀, hval⟩ := setMap_elsewhere hm (fun he => hne he.2) hm'
    rw [hval]
    exact h.bounded r' m₀ v' hm₀ hv'

end VmInv

end RiscvOs.Vm
