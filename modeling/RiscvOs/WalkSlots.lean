import RiscvOs.PartialMaps
set_option autoImplicit false

/-!
The entry that `walk` returns for a page. It is a slot in the leaf table of the page, which no
other page and no entry above the leaves shares, and the tables that `walk` adds leave the slots
of all other pages where they are.
-/

namespace RiscvOs.Vm
open WordMemory PageAlloc

/-- The entries that the loop of `walk` looks at, from `level` down to level 1. -/
def walkFromEntries (va : Word) (alloc : Bool) : Nat → Word → Mm → List Word
  | 0, _, _ => []
  | level+1, pagetable, s =>
    let pte := slot pagetable (px (level+1) va).toNat
    pte ::
      if pteValid (s.mem pte) then walkFromEntries va alloc level (pte2pa (s.mem pte)) s
      else if !alloc then []
      else
        let r := allocPage s
        if r.1 = 0#64 then []
        else walkFromEntries va alloc level r.1 (r.2.store pte (pa2pte r.1 ||| pteV))

def walkEntries (s : Mm) (pagetable va : Word) (alloc : Bool) : List Word :=
  if va ≥ maxVa then [] else walkFromEntries va alloc 2 pagetable s

section Growth

variable {P : Word × List Nat → Prop} {node node' : Nodes} {chain chain' held held' : List Word}
  {k : Word × List Nat} {p q : Word}

/-- Tables that are there stay where they are. -/
theorem Grows.extends (h : Grows P node chain held node' chain' held') (hk : node k = some p) :
    node' k = some p := by
  refine h.invariant (I := fun node _ _ => node k = some p) ?_ hk
  intro node k' q _ _ _ hnone hk
  exact update_node_of_some hnone hk

/-- A page that has left the free list is a table. -/
theorem Grows.linked (h : Grows P node chain held node' chain' held') (hq : q ∈ chain) :
    q ∈ chain' ∨ ∃ k, P k ∧ node k = none ∧ node' k = some q := by
  induction h with
  | refl => exact .inl hq
  | @link node node' k q' qs held chain' held' hk hnone hgrow ih =>
    rcases List.mem_cons.mp hq with rfl | hq
    · exact .inr ⟨k, hk, hnone, hgrow.extends (Function.update_self ..)⟩
    · rcases ih hq with hc | ⟨k', hk', hnone', hnew⟩
      · exact .inl hc
      · refine .inr ⟨k', hk', ?_, hnew⟩
        by_cases he : k' = k
        · rw [he]
          exact hnone
        · rwa [Function.update_of_ne he] at hnone'

end Growth

section Walk

variable {lo : Nat} {s : Mm} {roots : Word → Prop} {node : Nodes} {chain held : List Word} {r va : Word}

/-- Where `walk` finds the leaf table, it allocates nothing. -/
theorem walkFrom_found {level : Nat} {pt : Word} (h : (walkFrom va false level pt s).1 ≠ 0#64) :
    walkFrom va true level pt s = walkFrom va false level pt s := by
  induction level generalizing pt with
  | zero => rfl
  | succ level ih =>
    rw [walkFrom] at h ⊢
    by_cases hv : pteValid (s.mem (slot pt (px (level+1) va).toNat)) = true
    · simp only [hv, if_true] at h ⊢
      rw [walkFrom]
      simp only [hv, if_true]
      exact ih h
    · simp [hv] at h

theorem Tables.walk_found (h : Tables lo s roots node chain held) (hlo : 0 < lo) (hr : roots r)
    (hva : va.toNat < 2^38) {p : Word} (hp : node (r, leafPath (va.toNat / 4096)) = some p) (alloc : Bool) :
    walk s r va alloc = (slot p (va.toNat / 4096 % 512), s) := by
  have hfalse := h.walk_lookup hr va hva
  rw [hp] at hfalse
  cases alloc with
  | false => exact hfalse
  | true =>
    have hne := h.slot_ne_zero hlo hp (Nat.mod_lt (va.toNat / 4096) (show 0 < 512 by decide))
    rw [walk, if_neg (lt_maxVa hva)] at hfalse ⊢
    rw [walkFrom_found (by rw [hfalse]; exact hne), hfalse]

/-- What a call of `walk` does to the tree, whatever it returns. -/
theorem Tables.walk_spec (h : Tables lo s roots node chain held) (hr : roots r) (va : Word) (alloc : Bool) :
    ∃ node' chain' held', Tables lo (walk s r va alloc).2 roots node' chain' held' ∧
      Grows (fun k => k.1 = r ∧ va.toNat < 2^38 ∧ k.2 <+: leafPath (va.toNat / 4096)) node chain held
        node' chain' held' ∧
      (∀ r' v, leafAt (walk s r va alloc).2.mem node' r' v = leafAt s.mem node r' v) ∧
      ((walk s r va alloc).1 ≠ 0#64 → va.toNat < 2^38 ∧ ∃ p, node' (r, leafPath (va.toNat / 4096)) = some p ∧
        (walk s r va alloc).1 = slot p (va.toNat / 4096 % 512)) := by
  by_cases hva : va.toNat < 2^38
  · cases alloc with
    | true =>
      obtain ⟨node', chain', held', h', hgrow, hsame, hslot⟩ := h.walk_alloc hr va hva
        (P := fun k => k.1 = r ∧ va.toNat < 2^38 ∧ k.2 <+: leafPath (va.toNat / 4096))
        fun js hjs => ⟨rfl, hva, hjs⟩
      exact ⟨node', chain', held', h', hgrow, hsame,
        fun hne => ⟨hva, hslot.resolve_right fun hz => hne hz.1⟩⟩
    | false =>
      have hw := h.walk_lookup hr va hva
      refine ⟨node, chain, held, ?_, .refl, ?_, ?_⟩
      · rw [hw]
        exact h
      · rw [hw]
        exact fun _ _ => rfl
      · intro hne
        rw [hw] at hne ⊢
        cases hp : node (r, leafPath (va.toNat / 4096)) with
        | none => simp [hp] at hne
        | some p => exact ⟨hva, p, rfl, rfl⟩
  · rw [walk_null hva]
    exact ⟨node, chain, held, h, .refl, fun _ _ => rfl, fun hne => absurd rfl hne⟩

end Walk

section Entries

variable {lo : Nat} {s : Mm} {roots : Word → Prop} {node : Nodes} {chain held : List Word} {r pt va : Word}
  {is : List Nat} {level : Nat}

/-- At a table whose entry is there, the loop goes on with the table below. -/
theorem Tables.entries_cons (h : Tables lo s roots node chain held) {q : Word} {alloc : Bool}
    (hp : node (r, is) = some pt) (hlen : is.length + (level + 1) = 2)
    (hq : node (r, is ++ [(px (level+1) va).toNat]) = some q) :
    walkFromEntries va alloc (level+1) pt s =
      slot pt (px (level+1) va).toNat :: walkFromEntries va alloc level q s := by
  have hi := px_lt (level+1) va
  have hv := h.entry_valid hp (by omega) hi
  rw [hq, Option.isSome_some] at hv
  simp only [walkFromEntries, hv, if_true, h.entry_pa hp (by omega) hi hq]

/-- Where the table below is missing, the loop ends or takes a page from the free list. -/
theorem Tables.entries_missing (h : Tables lo s roots node chain held) (va : Word) (alloc : Bool)
    (hp : node (r, is) = some pt) (hlen : is.length + (level + 1) = 2)
    (hq : node (r, is ++ [(px (level+1) va).toNat]) = none) :
    walkFromEntries va alloc (level+1) pt s = [slot pt (px (level+1) va).toNat] ∨
      alloc = true ∧ ∃ q qs, chain = q :: qs ∧
        walkFromEntries va true (level+1) pt s = slot pt (px (level+1) va).toNat ::
          walkFromEntries va true level q
            ((allocPage s).2.store (slot pt (px (level+1) va).toNat) (pa2pte q ||| pteV)) := by
  have hi := px_lt (level+1) va
  have hv := h.entry_valid hp (by omega) hi
  rw [hq, Option.isSome_none] at hv
  cases alloc with
  | false => exact .inl (by simp [walkFromEntries, hv])
  | true =>
    cases chain with
    | nil => exact .inl (by simp [walkFromEntries, hv, h.split.alloc_nil])
    | cons q qs =>
      have hfst : (allocPage s).1 = q := by rw [h.split.alloc_eq]
      have hne : q ≠ 0#64 := h.split.linked.2.1
      exact .inr ⟨rfl, q, qs, rfl, by simp [walkFromEntries, hv, hfst, hne]⟩

theorem walkPath_lt {level i : Nat} (h : i ∈ walkPath va level) : i < 512 := by
  induction level with
  | zero => cases h
  | succ level ih =>
    rcases List.mem_cons.mp h with rfl | h
    · exact px_lt (level+1) va
    · exact ih h

theorem walkPath_length (va : Word) (level : Nat) : (walkPath va level).length = level := by
  induction level with
  | zero => rfl
  | succ level ih => rw [walkPath, List.length_cons, ih]

/-- An entry on the way to the leaf of `va`: it is in a table below `(r, is)`, or in a page that
the loop takes from the free list. -/
def OnTheWay (node : Nodes) (chain : List Word) (r va : Word) (is : List Nat) (level : Nat) (alloc : Bool)
    (e : Word) : Prop :=
  ∃ js j p, js ++ [j] <+: walkPath va level ∧ e = slot p j ∧
    (node (r, is ++ js) = some p ∨ alloc = true ∧ p ∈ chain)

theorem OnTheWay.here {alloc : Bool} (hp : node (r, is) = some pt) :
    OnTheWay node chain r va is (level+1) alloc (slot pt (px (level+1) va).toNat) := by
  refine ⟨[], _, pt, ?_, rfl, .inl (by rwa [List.append_nil])⟩
  rw [walkPath, List.nil_append, List.cons_prefix_cons]
  exact ⟨rfl, List.nil_prefix⟩

theorem OnTheWay.below {alloc : Bool} {e : Word}
    (h : OnTheWay node chain r va (is ++ [(px (level+1) va).toNat]) level alloc e) :
    OnTheWay node chain r va is (level+1) alloc e := by
  obtain ⟨js, j, p, hpath, he, hp⟩ := h
  refine ⟨(px (level+1) va).toNat :: js, j, p, ?_, he, ?_⟩
  · rw [walkPath, List.cons_append, List.cons_prefix_cons]
    exact ⟨rfl, hpath⟩
  · rwa [List.append_assoc, List.singleton_append] at hp

/-- All entries that the loop looks at are on the way to the leaf. -/
theorem Tables.entries_onTheWay (h : Tables lo s roots node chain held) {alloc : Bool}
    (hp : node (r, is) = some pt) (hlen : is.length + level = 2) {e : Word}
    (he : e ∈ walkFromEntries va alloc level pt s) : OnTheWay node chain r va is level alloc e := by
  induction level generalizing pt is s node chain held with
  | zero => cases he
  | succ level ih =>
    have hlen' : (is ++ [(px (level+1) va).toNat]).length + level = 2 := by simp; omega
    cases hq : node (r, is ++ [(px (level+1) va).toNat]) with
    | some q =>
      rw [h.entries_cons hp hlen hq] at he
      rcases List.mem_cons.mp he with rfl | he
      · exact .here hp
      · exact (ih h hq hlen' he).below
    | none =>
      rcases h.entries_missing va alloc hp hlen hq with heq | ⟨rfl, q, qs, rfl, heq⟩
      · rw [heq, List.mem_singleton] at he
        rw [he]
        exact .here hp
      · rw [heq] at he
        rcases List.mem_cons.mp he with rfl | he
        · exact .here hp
        · have hlink := h.link hp (by omega) (px_lt (level+1) va) hq
          refine OnTheWay.below ?_
          obtain ⟨js, j, p, hpath, rfl, hcase⟩ := ih hlink (Function.update_self ..) hlen' he
          refine ⟨js, j, p, hpath, rfl, ?_⟩
          rcases hcase with hnode | ⟨_, hmem⟩
          · rcases update_node_cases hnode with hnew | hold
            · exact .inr ⟨rfl, hnew.2 ▸ List.mem_cons_self⟩
            · exact .inl hold
          · exact .inr ⟨rfl, List.mem_cons_of_mem q hmem⟩

/-- The entry of every table on the way to the leaf is looked at. -/
theorem Tables.mem_entries (h : Tables lo s roots node chain held) {alloc : Bool}
    (hp : node (r, is) = some pt) (hlen : is.length + level = 2) {js : List Nat} {j : Nat} {p : Word}
    (hpath : js ++ [j] <+: walkPath va level) (hjs : node (r, is ++ js) = some p) :
    slot p j ∈ walkFromEntries va alloc level pt s := by
  induction level generalizing pt is js with
  | zero =>
    have hle := hpath.length_le
    simp [walkPath] at hle
  | succ level ih =>
    cases js with
    | nil =>
      rw [List.append_nil, hp] at hjs
      cases hjs
      obtain rfl : j = (px (level+1) va).toNat := by
        simpa [walkPath, List.cons_prefix_cons] using hpath
      rw [walkFromEntries]
      exact List.mem_cons_self
    | cons i js =>
      rw [walkPath, List.cons_append, List.cons_prefix_cons] at hpath
      obtain ⟨rfl, hpath⟩ := hpath
      have hsplit : is ++ (px (level+1) va).toNat :: js = is ++ [(px (level+1) va).toNat] ++ js := by simp
      rw [hsplit] at hjs
      cases hq : node (r, is ++ [(px (level+1) va).toNat]) with
      | none =>
        rw [h.children_none js hq] at hjs
        cases hjs
      | some q =>
        rw [h.entries_cons hp hlen hq]
        exact List.mem_cons_of_mem _ (ih hq (by simp; omega) hpath hjs)

/-- In a larger tree the loop looks at the same entries, and maybe at more. -/
theorem Tables.entries_mono (h : Tables lo s roots node chain held) {s' : Mm} {node' : Nodes}
    {chain' held' : List Word} (h' : Tables lo s' roots node' chain' held')
    (hext : ∀ k p, node k = some p → node' k = some p) (hp : node (r, is) = some pt)
    (hlen : is.length + level = 2) {e : Word} (he : e ∈ walkFromEntries va false level pt s) :
    e ∈ walkFromEntries va false level pt s' := by
  obtain ⟨js, j, p, hpath, rfl, hcase⟩ := h.entries_onTheWay hp hlen he
  have hnode := hcase.resolve_right fun hc => Bool.false_ne_true hc.1
  exact h'.mem_entries (hext _ _ hp) hlen hpath (hext _ _ hnode)

/-- The entries that the loop has looked at are those of the way to the leaf afterwards. -/
theorem Tables.entries_after (h : Tables lo s roots node chain held) (hp : node (r, is) = some pt)
    (hlen : is.length + level = 2) {e : Word} (he : e ∈ walkFromEntries va true level pt s) :
    e ∈ walkFromEntries va false level pt (walkFrom va true level pt s).2 := by
  induction level generalizing pt is s node chain held with
  | zero => cases he
  | succ level ih =>
    have hi := px_lt (level+1) va
    -- After the rest of the loop, `pt` and the table below it are where they were.
    have hrest {s' : Mm} {node' : Nodes} {chain' held' : List Word} {q : Word}
        (h' : Tables lo s' roots node' chain' held') (hp' : node' (r, is) = some pt)
        (hq' : node' (r, is ++ [(px (level+1) va).toNat]) = some q)
        (he : e ∈ slot pt (px (level+1) va).toNat :: walkFromEntries va true level q s') :
        e ∈ walkFromEntries va false (level+1) pt (walkFrom va true level q s').2 := by
      have hlen' : (is ++ [(px (level+1) va).toNat]).length + level = 2 := by simp; omega
      obtain ⟨_, _, _, hend, hgrow, _⟩ := h'.walkFrom_alloc va (P := fun _ => True) hq' hlen' (by simp)
      rw [hend.entries_cons (hgrow.extends hp') hlen (hgrow.extends hq')]
      rcases List.mem_cons.mp he with rfl | he
      · exact List.mem_cons_self
      · exact List.mem_cons_of_mem _ (ih h' hq' hlen' he)
    cases hq : node (r, is ++ [(px (level+1) va).toNat]) with
    | some q =>
      rw [h.entries_cons hp hlen hq] at he
      rw [h.walkFrom_cons hp hlen hq]
      exact hrest h hp hq he
    | none =>
      rcases h.entries_missing va true hp hlen hq with heq | ⟨_, q, qs, rfl, heq⟩
      · rw [heq, List.mem_singleton] at he
        rw [he, walkFromEntries]
        exact List.mem_cons_self
      · rw [heq] at he
        rw [h.walkFrom_links hp hlen hq]
        exact hrest (h.link hp (by omega) hi hq) (update_node_of_some hq hp) (Function.update_self ..) he

end Entries

/-- A call of `walk` on the table `pt`, or a store through the entry that `walk` finds, as
`mappages` and `unmappages` make them. -/
inductive SlotCall where
  | walk (va : Word) (alloc : Bool)
  | store (va v : Word)

def SlotCall.exec (pt : Word) (s : Mm) : SlotCall → Mm
  | .walk va alloc => (Vm.walk s pt va alloc).2
  | .store va v =>
    let pte := (Vm.walk s pt va false).1
    if pte = 0#64 then s else s.store pte v

/-- Between `s` and `s'` no page of `pt` has lost its leaf entry or got another word in it. New
leaf entries are not valid, and the pages that have left the free list are tables of `pt`. What
was an entry above the leaves still is one. -/
structure WalkKeeps (pt : Word) (s s' : Mm) : Prop where
  resolved : ∀ w, (walk s pt w false).1 ≠ 0#64 → walk s' pt w false = ((walk s pt w false).1, s') ∧
    s'.mem (walk s pt w false).1 = s.mem (walk s pt w false).1
  added : ∀ w, (walk s pt w false).1 = 0#64 → (walk s' pt w false).1 ≠ 0#64 →
    pteValid (s'.mem (walk s' pt w false).1) = false
  translations : ∀ w, leafPte s' pt w = leafPte s pt w ∧ va2pa s' pt w = va2pa s pt w ∧
    walkaddr s' pt w = walkaddr s pt w
  linked : ∀ free free', Chain s.mem 0#64 s.freePages free → Chain s'.mem 0#64 s'.freePages free' →
    ∀ q ∈ free, q ∉ free' → ∃ w, ∃ e ∈ walkEntries s' pt w false,
      pteValid (s'.mem e) = true ∧ pte2pa (s'.mem e) = q
  entries : ∀ w, ∀ e ∈ walkEntries s pt w false, e ∈ walkEntries s' pt w false

/-- In `s` the entry `pte` is that of the page of `va`, and of nothing else. -/
structure PrivateSlot (pt va pte : Word) (s : Mm) : Prop where
  again : ∀ alloc, walk s pt va alloc = (pte, s)
  unique : ∀ w alloc, (walk s pt w alloc).1 ≠ 0#64 → ((walk s pt w alloc).1 = pte ↔ w >>> 12 = va >>> 12)
  interior : ∀ w alloc, pte ∉ walkEntries s pt w alloc

section Slots

variable {lo : Nat} {s : Mm} {roots : Word → Prop} {node : Nodes} {chain held : List Word} {pt va p : Word}

theorem page_eq_iff (w va : Word) : w >>> 12 = va >>> 12 ↔ w.toNat / 4096 = va.toNat / 4096 := by
  rw [← BitVec.toNat_inj, BitVec.toNat_ushiftRight, BitVec.toNat_ushiftRight, Nat.shiftRight_eq_div_pow,
    Nat.shiftRight_eq_div_pow]

theorem Tables.not_mem_entries (h : Tables lo s roots node chain held) (hr : roots pt) {v : Nat}
    (hp : node (pt, leafPath v) = some p) (w : Word) (alloc : Bool) :
    slot p (v % 512) ∉ walkEntries s pt w alloc := by
  intro he
  have hv : v % 512 < 512 := Nat.mod_lt _ (by decide)
  rw [walkEntries] at he
  split at he
  · cases he
  · obtain ⟨js, j, p', hpath, heq, hcase⟩ := h.entries_onTheWay (h.forest.root pt hr) rfl he
    have hj : j < 512 := walkPath_lt (hpath.subset (List.mem_append_right js (List.mem_singleton_self j)))
    rcases hcase with hnode | ⟨_, hmem⟩
    · have hlen := hpath.length_le
      obtain ⟨hkey, _⟩ := (h.slot_eq_iff hnode hp hj hv).mp heq
      have hjs : leafPath v = js := congrArg Prod.snd hkey
      rw [walkPath_length, List.length_append, ← hjs] at hlen
      simp [leafPath] at hlen
    · obtain ⟨rfl, _⟩ := (slot_inj (h.aligned hp) (h.split.isPage_chain hmem).aligned hv hj).mp heq
      exact h.split.ne_of_mem hmem (h.owned _ _ hp) rfl

/-- The slot of a page whose leaf table is there. -/
theorem Tables.privateSlot (h : Tables lo s roots node chain held) (hlo : 0 < lo) (hr : roots pt)
    (hva : va.toNat < 2^38) (hp : node (pt, leafPath (va.toNat / 4096)) = some p) :
    PrivateSlot pt va (slot p (va.toNat / 4096 % 512)) s := by
  refine ⟨h.walk_found hlo hr hva hp, ?_, h.not_mem_entries hr hp⟩
  intro w alloc hne
  obtain ⟨node', chain', held', h', hgrow, _, hslot⟩ := h.walk_spec hr w alloc
  obtain ⟨_, p', hp', heq⟩ := hslot hne
  rw [heq, h'.slot_eq_iff (hgrow.extends hp) hp' (Nat.mod_lt _ (by decide)) (Nat.mod_lt _ (by decide)), page_eq_iff]
  constructor
  · rintro ⟨hkey, hlow⟩
    exact leafPath_inj (congrArg Prod.snd hkey) hlow
  · intro hpage
    rw [hpage]
    exact ⟨rfl, rfl⟩

theorem Tables.walk_resolved (h : Tables lo s roots node chain held) (hr : roots pt)
    (hne : (walk s pt va false).1 ≠ 0#64) :
    va.toNat < 2^38 ∧ ∃ p, node (pt, leafPath (va.toNat / 4096)) = some p := by
  by_cases hva : va.toNat < 2^38
  · rw [h.walk_lookup hr va hva] at hne
    cases hp : node (pt, leafPath (va.toNat / 4096)) with
    | none => simp [hp] at hne
    | some p => exact ⟨hva, p, rfl⟩
  · rw [walk_null hva] at hne
    exact absurd rfl hne

/-- A table of the tree, but for its root, is what a valid entry on the way to a leaf points to. -/
theorem Tables.table_linked (h : Tables lo s roots node chain held) (hr : roots pt) (hva : va.toNat < 2^38)
    {js : List Nat} {q : Word} (hne : js ≠ []) (hjs : js <+: leafPath (va.toNat / 4096))
    (hq : node (pt, js) = some q) : ∃ e ∈ walkEntries s pt va false,
      pteValid (s.mem e) = true ∧ pte2pa (s.mem e) = q := by
  obtain ⟨is, i, rfl⟩ := (List.eq_nil_or_concat js).resolve_left hne
  rw [List.concat_eq_append] at hq hjs
  obtain ⟨p, hp⟩ := h.forest.parent _ _ _ _ hq
  have hlen : is.length < 2 := by
    have hle := hjs.length_le
    simp [leafPath] at hle
    omega
  have hi : i < 512 := by
    have hmem := hjs.subset (List.mem_append_right is (List.mem_singleton_self i))
    simp only [leafPath, List.mem_cons, List.not_mem_nil, or_false] at hmem
    omega
  refine ⟨slot p i, ?_, ?_, h.entry_pa hp hlen hi hq⟩
  · rw [walkEntries, if_neg (lt_maxVa hva)]
    refine h.mem_entries (h.forest.root pt hr) rfl ?_ hp
    rwa [walkPath_two hva]
  · rw [h.entry_valid hp hlen hi, hq, Option.isSome_some]

section Grown

variable {s' : Mm} {node' : Nodes} {chain' held' : List Word} {w : Word}

/-- In a larger tree with the same leaves a page keeps its slot and the word in it. -/
theorem Tables.slot_kept (h : Tables lo s roots node chain held) (h' : Tables lo s' roots node' chain' held')
    (hlo : 0 < lo) (hr : roots pt) (hext : ∀ k p, node k = some p → node' k = some p)
    (hsame : ∀ r v, leafAt s'.mem node' r v = leafAt s.mem node r v) (hne : (walk s pt w false).1 ≠ 0#64) :
    walk s' pt w false = ((walk s pt w false).1, s') ∧
      s'.mem (walk s pt w false).1 = s.mem (walk s pt w false).1 := by
  obtain ⟨hw, p, hp⟩ := h.walk_resolved hr hne
  have hp' := hext _ _ hp
  have hleaf := hsame pt (w.toNat / 4096)
  rw [leafAt_some hp, leafAt_some hp'] at hleaf
  rw [h.walk_found hlo hr hw hp, h'.walk_found hlo hr hw hp']
  exact ⟨rfl, hleaf⟩

/-- The slot of a page that had none holds 0. -/
theorem Tables.slot_added (h : Tables lo s roots node chain held) (h' : Tables lo s' roots node' chain' held')
    (hlo : 0 < lo) (hr : roots pt) (hsame : ∀ r v, leafAt s'.mem node' r v = leafAt s.mem node r v)
    (hnull : (walk s pt w false).1 = 0#64) (hne : (walk s' pt w false).1 ≠ 0#64) :
    s'.mem (walk s' pt w false).1 = 0#64 := by
  obtain ⟨hw, p, hp'⟩ := h'.walk_resolved hr hne
  have hnone : node (pt, leafPath (w.toNat / 4096)) = none := by
    cases hp : node (pt, leafPath (w.toNat / 4096)) with
    | none => rfl
    | some p =>
      rw [h.walk_found hlo hr hw hp] at hnull
      exact absurd hnull (h.slot_ne_zero hlo hp (Nat.mod_lt _ (by decide)))
  have hleaf := hsame pt (w.toNat / 4096)
  rw [leafAt_none hnone, leafAt_some hp'] at hleaf
  rw [h'.walk_found hlo hr hw hp', hleaf]

end Grown

/-- A call of `walk` keeps every slot and every translation. -/
theorem Tables.walk_keeps (h : Tables lo s roots node chain held) (hlo : 0 < lo) (hr : roots pt) (va : Word)
    (alloc : Bool) : WalkKeeps pt s (walk s pt va alloc).2 := by
  obtain ⟨node', chain', held', h', hgrow, hsame, _⟩ := h.walk_spec hr va alloc
  generalize (walk s pt va alloc).2 = s' at h' hsame
  refine ⟨?_, ?_, ?_, ?_, ?_⟩
  · exact fun w => h.slot_kept h' hlo hr (fun _ _ => hgrow.extends) hsame
  · intro w hnull hne
    rw [h.slot_added h' hlo hr hsame hnull hne]
    exact pteValid_zero
  · intro w
    have hleaf : leafPte s' pt w = leafPte s pt w := by
      rw [h.leafPte_eq hlo hr, h'.leafPte_eq hlo hr, hsame]
    refine ⟨hleaf, ?_, ?_⟩
    · rw [va2pa_eq, va2pa_eq, hleaf]
    · rw [walkaddr_eq, walkaddr_eq, hleaf]
  · intro free free' hfree hfree' q hq hnot
    obtain rfl := hfree.unique h.split.linked
    obtain rfl := hfree'.unique h'.split.linked
    obtain ⟨⟨r, js⟩, ⟨rfl, hva, hjs⟩, hnone, hnew⟩ := (hgrow.linked hq).resolve_left hnot
    have hne : js ≠ [] := by
      rintro rfl
      rw [h.forest.root _ hr] at hnone
      cases hnone
    exact ⟨va, h'.table_linked hr hva hne hjs hnew⟩
  · intro w e he
    rw [walkEntries] at he ⊢
    split at he
    · cases he
    · next hw =>
      rw [if_neg hw]
      exact h.entries_mono h' (fun _ _ => hgrow.extends) (h.forest.root pt hr) rfl he

/-- A call keeps the tree and all tables in it. -/
theorem Tables.slotCall (h : Tables lo s roots node chain held) (hlo : 0 < lo) (hr : roots pt) (c : SlotCall) :
    ∃ node' chain' held', Tables lo (c.exec pt s) roots node' chain' held' ∧
      ∀ k p, node k = some p → node' k = some p := by
  cases c with
  | walk va alloc =>
    obtain ⟨node', chain', held', h', hgrow, _⟩ := h.walk_spec hr va alloc
    exact ⟨node', chain', held', h', fun _ _ => hgrow.extends⟩
  | store va v =>
    simp only [SlotCall.exec]
    split
    · exact ⟨node, chain, held, h, fun _ _ => id⟩
    · next hne =>
      obtain ⟨hva, p, hp⟩ := h.walk_resolved hr hne
      rw [h.walk_found hlo hr hva hp]
      exact ⟨node, chain, held, (h.setLeaf hp v).1, fun _ _ => id⟩

theorem Tables.slotCalls (h : Tables lo s roots node chain held) (hlo : 0 < lo) (hr : roots pt)
    (calls : List SlotCall) :
    ∃ node' chain' held', Tables lo (calls.foldl (SlotCall.exec pt) s) roots node' chain' held' ∧
      ∀ k p, node k = some p → node' k = some p := by
  induction calls generalizing s node chain held with
  | nil => exact ⟨node, chain, held, h, fun _ _ => id⟩
  | cons c calls ih =>
    obtain ⟨node₁, _, _, h₁, hext⟩ := h.slotCall hlo hr c
    obtain ⟨node₂, chain₂, held₂, h₂, hext₂⟩ := ih h₁
    exact ⟨node₂, chain₂, held₂, h₂, fun k p hp => hext₂ k p (hext k p hp)⟩

end Slots

/-- `walk(pt, va, 1)` on a well-formed table keeps the slots and translations of all pages, and
links every page that it takes. The slot that it returns is not an entry that it has looked at
above the leaves, and it stays the private slot of the page of `va` through all later calls. -/
theorem walk_slot_private {s : Mm} {pt : Word} (h : WellFormed s pt) (va : Word) (calls : List SlotCall) :
    WalkKeeps pt s (walk s pt va true).2 ∧
    ((walk s pt va true).1 ≠ 0#64 → (walk s pt va true).1 ∉ walkEntries s pt va true ∧
      PrivateSlot pt va (walk s pt va true).1 (calls.foldl (SlotCall.exec pt) (walk s pt va true).2)) := by
  obtain ⟨lo, roots, node, chain, held, hlo, ht, hr⟩ := h
  refine ⟨ht.walk_keeps hlo hr va true, ?_⟩
  intro hne
  obtain ⟨node₁, chain₁, held₁, h₁, _, _, hslot⟩ := ht.walk_spec hr va true
  obtain ⟨hva, p, hp, heq⟩ := hslot hne
  rw [heq]
  constructor
  · intro he
    rw [walkEntries, if_neg (lt_maxVa hva)] at he
    have hafter := ht.entries_after (ht.forest.root pt hr) rfl he
    refine h₁.not_mem_entries hr hp va false ?_
    rw [walkEntries, if_neg (lt_maxVa hva), walk, if_neg (lt_maxVa hva)]
    exact hafter
  · obtain ⟨node₂, _, _, h₂, hext⟩ := h₁.slotCalls hlo hr calls
    exact h₂.privateSlot hlo hr hva (hext _ _ hp)

/-- Two pages of a fresh address space that share their leaf table. -/
theorem walk_slot_private_two :
    PrivateSlot 0x87FFD000#64 0x1000#64 0x87FFF008#64
      ([.store 0x1000#64 0x20000007#64, .walk 0x2000#64 true].foldl (SlotCall.exec 0x87FFD000#64)
        (walk smallTable 0x87FFD000#64 0x1000#64 true).2) := by
  have hslot : (walk smallTable 0x87FFD000#64 0x1000#64 true).1 = 0x87FFF008#64 := by decide +kernel
  have h := (walk_slot_private smallTable_wellFormed 0x1000#64
    [.store 0x1000#64 0x20000007#64, .walk 0x2000#64 true]).2 (by rw [hslot]; decide)
  rw [hslot] at h
  exact h.2

end RiscvOs.Vm
