import RiscvOs.Vfs
import RiscvOs.FileNames
set_option autoImplicit false

/-!
Which device a name leads to. `vfs_register_device` cuts a name off after 31 characters and
never looks at what is registered, `find_device` takes the first device of the name, and
`vfs_open` drops a leading slash.
-/

namespace RiscvOs.VirtualFs
open WordMemory PageAlloc CStrings

variable {δ : Type}

/-- A driver's `open` may fill in the file, but leaves it on the inode that `vfs_open` made. -/
def FileOps.KeepsInode (ops : FileOps δ) : Prop :=
  ∀ hook, ops.openHook = some hook → ∀ file d, (hook file d).file.inode = file.inode

/-- There is no `open`, or it returns 0 in this state of the drivers. -/
def FileOps.OpensAt (ops : FileOps δ) (d : δ) : Prop :=
  ∀ hook, ops.openHook = some hook → ∀ file, (hook file d).ret = 0#32

/-- The arguments of a call of `vfs_register_device`. -/
structure Registration (δ : Type) where
  name : Nat → Byte
  text : List Byte
  spells : Spells name text
  ops : FileOps δ
  keeps : ops.KeepsInode

/-- The name as the registry keeps it. -/
def Registration.stored (c : Registration δ) : List Byte := c.text.take 31

def Vfs.register (s : Vfs δ) (c : Registration δ) : Int × Vfs δ := vfsRegisterDevice c.name c.ops s

def registerAll (calls : List (Registration δ)) (s : Vfs δ) : Vfs δ :=
  calls.foldl (fun s c => (s.register c).2) s

/-- The first of the calls with the name `t`. -/
def firstNamed (t : List Byte) (calls : List (Registration δ)) : Option (Registration δ) :=
  calls.find? fun c => decide (c.stored = t)

/-- `vfs_open` finds the heap space for the file and for the inode. -/
def Room (l : Layout) (mm : Mm) : Prop :=
  (kmalloc l 16#64 mm).1 ≠ 0#64 ∧ (kmalloc l 32#64 (kmalloc l 16#64 mm).2).1 ≠ 0#64

/-- `vfs_open` has returned a file on an inode with these operations. -/
def OpensOn (r : Word × Vfs δ) (ops : FileOps δ) : Prop :=
  r.1 ≠ 0#64 ∧ (r.2.inodes (r.2.files r.1).inode).ops = some ops

/-- The path without a leading slash. -/
def afterSlash : List Byte → List Byte
  | [] => []
  | c :: cs => if c = byte '/' then cs else c :: cs

theorem skipSlash_text {path : Nat → Byte} {t : List Byte} (h : Spells path t) :
    Spells (skipSlash path) (afterSlash t) := by
  cases t with
  | nil =>
    have h0 : path 0 = 0#8 := h
    rw [skipSlash, if_neg (by rw [h0]; decide)]
    exact h
  | cons c cs =>
    rw [skipSlash, afterSlash, h.1]
    split
    · exact h.2.2
    · exact h

section Slots

/-- The calls that were granted stand in the first slots, in their order. -/
structure Listed (s : Vfs δ) (cs : List (Registration δ)) : Prop where
  fits : cs.length ≤ 16
  used : ∀ i, (s.devices i).used = decide (i.val < cs.length)
  entry : ∀ i c, cs[i.val]? = some c → Spells (s.devices i).name c.stored ∧ (s.devices i).ops = c.ops

variable {s : Vfs δ} {cs : List (Registration δ)} {c : Registration δ}

theorem Listed.init (s : Vfs δ) : Listed (vfsInit s) [] where
  fits := by simp
  used _ := rfl
  entry i c hc := by simp at hc

/-- One more slot filled, behind the others. -/
theorem Listed.extend {s' : Vfs δ} {old : Nat → Byte} (h : Listed s cs) (hroom : cs.length < 16)
    (hself : s'.devices ⟨cs.length, hroom⟩ = ⟨copyName c.name 31 0 old, c.ops, true⟩)
    (hother : ∀ i, i.val ≠ cs.length → s'.devices i = s.devices i) : Listed s' (cs ++ [c]) where
  fits := by
    rw [List.length_append, List.length_singleton]
    omega
  used i := by
    rw [List.length_append, List.length_singleton]
    by_cases hi : i.val = cs.length
    · obtain rfl : i = ⟨cs.length, hroom⟩ := Fin.ext hi
      rw [hself]
      simp
    · rw [hother i hi, h.used]
      exact decide_eq_decide.mpr (by omega)
  entry i d hd := by
    by_cases hi : i.val = cs.length
    · obtain rfl : i = ⟨cs.length, hroom⟩ := Fin.ext hi
      rw [List.getElem?_concat_length, Option.some.injEq] at hd
      subst hd
      have hname : Spells (fun i => c.name (0 + i)) c.text := by simpa using c.spells
      have hcopy := copyName_spells c.name old 31 hname
      rw [hself]
      exact ⟨by simpa [Registration.stored] using hcopy, rfl⟩
    · have hlen := (List.getElem?_eq_some_iff.mp hd).1
      rw [List.length_append, List.length_singleton] at hlen
      rw [List.getElem?_append_left (by omega)] at hd
      rw [hother i hi]
      exact h.entry i d hd

theorem Listed.register (h : Listed s cs) (c : Registration δ) (hroom : cs.length < 16) :
    (s.register c).1 = 0 ∧ Listed (s.register c).2 (cs ++ [c]) := by
  have hfind : ((List.finRange 16).find? fun i => !(s.devices i).used) = some ⟨cs.length, hroom⟩ := by
    rw [SimpleFs.find_finRange_iff]
    refine ⟨?_, ?_⟩
    · simp [h.used]
    · intro j hj
      have hj : j.val < cs.length := hj
      simp [h.used, hj]
  simp only [Vfs.register, vfsRegisterDevice, hfind]
  refine ⟨trivial, h.extend hroom (Function.update_self ..) ?_⟩
  intro i hi
  exact Function.update_of_ne (fun he => hi (congrArg Fin.val he)) ..

theorem Listed.register_full (h : Listed s cs) (c : Registration δ) (hfull : cs.length = 16) :
    s.register c = (-1, s) := by
  have hfind : ((List.finRange 16).find? fun i => !(s.devices i).used) = none := by
    rw [List.find?_eq_none]
    intro i _
    have hi : i.val < cs.length := by
      rw [hfull]
      exact i.isLt
    simp [h.used, hi]
  simp only [Vfs.register, vfsRegisterDevice, hfind]

/-- A registry after any number of further calls. -/
theorem Listed.registerAll (h : Listed s cs) (calls : List (Registration δ)) :
    Listed (registerAll calls s) ((cs ++ calls).take 16) := by
  induction calls generalizing s cs with
  | nil =>
    rw [List.append_nil, List.take_of_length_le h.fits]
    exact h
  | cons c calls ih =>
    by_cases hroom : cs.length < 16
    · have hrec := ih (h.register c hroom).2
      rw [List.append_assoc] at hrec
      exact hrec
    · have hfull : cs.length = 16 := by
        have := h.fits
        omega
      have hcut (ds : List (Registration δ)) : (cs ++ ds).take 16 = cs := by
        rw [← hfull, List.take_left]
      have hrec := ih h
      rw [hcut] at hrec ⊢
      rw [VirtualFs.registerAll, List.foldl_cons, h.register_full c hfull]
      exact hrec

/-- Registrations change nothing but the table of the devices. -/
theorem registerAll_frame (calls : List (Registration δ)) (s : Vfs δ) :
    (registerAll calls s).mm = s.mm ∧ (registerAll calls s).dev = s.dev := by
  induction calls generalizing s with
  | nil => exact ⟨rfl, rfl⟩
  | cons c calls ih =>
    have hone : (s.register c).2.mm = s.mm ∧ (s.register c).2.dev = s.dev := by
      rw [Vfs.register, vfsRegisterDevice]
      split <;> exact ⟨rfl, rfl⟩
    obtain ⟨hmm, hdev⟩ := ih (s.register c).2
    exact ⟨hmm.trans hone.1, hdev.trans hone.2⟩

end Slots

section Find

variable {s : Vfs δ} {cs : List (Registration δ)} {c : Registration δ} {name : Nat → Byte} {t : List Byte}

/-- A slot matches a name exactly when it is in use and holds the whole name. -/
theorem Listed.matches_iff (h : Listed s cs) (ht : Spells name t) (i : Fin 16) :
    ((s.devices i).used && sameName 32 (s.devices i).name name) = true ↔
      ∃ c, cs[i.val]? = some c ∧ c.stored = t := by
  rw [Bool.and_eq_true, h.used, decide_eq_true_eq]
  constructor
  · rintro ⟨hi, hsame⟩
    obtain ⟨hs, -⟩ := h.entry i cs[i.val] (List.getElem?_eq_getElem hi)
    have hlen : (cs[i.val]).stored.length < 32 := by
      rw [Registration.stored, List.length_take]
      omega
    exact ⟨cs[i.val], List.getElem?_eq_getElem hi, (hs.sameName_iff ht hlen).mp hsame⟩
  · rintro ⟨c, hc, rfl⟩
    obtain ⟨hs, -⟩ := h.entry i c hc
    have hlen : c.stored.length < 32 := by
      rw [Registration.stored, List.length_take]
      omega
    exact ⟨(List.getElem?_eq_some_iff.mp hc).1, (hs.sameName_iff ht hlen).mpr rfl⟩

theorem Listed.findDevice_none (h : Listed s cs) (ht : Spells name t) (hn : firstNamed t cs = none) :
    findDevice s name = none := by
  rw [findDevice, List.find?_eq_none]
  intro i _ hmatch
  obtain ⟨c, hc, hname⟩ := (h.matches_iff ht i).mp hmatch
  have hno := List.find?_eq_none.mp hn c (List.mem_of_getElem? hc)
  exact hno (decide_eq_true hname)

theorem Listed.findDevice_some (h : Listed s cs) (ht : Spells name t) (hn : firstNamed t cs = some c) :
    ∃ i, findDevice s name = some i ∧ cs[i.val]? = some c := by
  obtain ⟨hc, k, hk, rfl, hbefore⟩ := List.find?_eq_some_iff_getElem.mp hn
  refine ⟨⟨k, by have := h.fits; omega⟩, ?_, List.getElem?_eq_getElem hk⟩
  rw [findDevice, SimpleFs.find_finRange_iff]
  constructor
  · exact (h.matches_iff ht _).mpr ⟨cs[k], List.getElem?_eq_getElem hk, of_decide_eq_true hc⟩
  · intro j hj
    rw [Bool.eq_false_iff]
    intro hmatch
    obtain ⟨d, hd, hname⟩ := (h.matches_iff ht j).mp hmatch
    obtain ⟨hjlen, rfl⟩ := List.getElem?_eq_some_iff.mp hd
    have hno := hbefore j.val hj
    simp [hname] at hno

end Find

section Open

variable {s : Vfs δ} {l : Layout} {p : Word} {ops ops' : FileOps δ}

theorem openDevice_opensOn (hp : p ≠ 0#64) (hops : (s.inodes (s.files p).inode).ops = some ops)
    (hkeep : ops.KeepsInode) (hopen : ops.OpensAt s.dev) : OpensOn (openDevice p ops s) ops := by
  rw [openDevice]
  split
  · exact ⟨hp, hops⟩
  · next hook hh =>
    rw [if_neg (by simp [hopen hook hh])]
    refine ⟨hp, ?_⟩
    simp only [Vfs.setFile, Function.update_self, hkeep hook hh]
    exact hops

/-- A file that was opened has the operations of its device and no others. -/
theorem openDevice_ops (hops : (s.inodes (s.files p).inode).ops = some ops) (hkeep : ops.KeepsInode)
    (h : OpensOn (openDevice p ops s) ops') : ops = ops' := by
  rw [openDevice] at h
  split at h
  · exact Option.some.inj (hops.symm.trans h.2)
  · next hook hh =>
    dsimp only at h
    split at h
    · exact absurd rfl h.1
    · have hfound := h.2
      simp only [Vfs.setFile, Function.update_self, hkeep hook hh] at hfound
      exact Option.some.inj (hops.symm.trans hfound)

/-- `vfs_open` up to the device's own `open`, when there is heap space. -/
theorem vfsOpen_found {path : Nat → Byte} {i : Fin 16} (flags : U32) (hroom : Room l s.mm)
    (hfind : findDevice s (skipSlash path) = some i) : ∃ (p : Word) (s' : Vfs δ),
      vfsOpen l path flags s = openDevice p (s.devices i).ops s' ∧ p ≠ 0#64 ∧ s'.dev = s.dev ∧
      (s'.inodes (s'.files p).inode).ops = some (s.devices i).ops := by
  simp only [vfsOpen, hfind, if_neg hroom.1, vfsCreateInode, if_neg hroom.2]
  refine ⟨_, _, rfl, hroom.1, rfl, ?_⟩
  simp [Vfs.setFile, Vfs.setInode]

theorem vfsOpen_missing {path : Nat → Byte} (flags : U32) (hfind : findDevice s (skipSlash path) = none) :
    vfsOpen l path flags s = (0#64, s) := by
  simp only [vfsOpen, hfind]

variable {cs : List (Registration δ)} {c d : Registration δ} {path : Nat → Byte} {t : List Byte}

theorem Listed.open_none (h : Listed s cs) (ht : Spells path t) (flags : U32)
    (hfirst : firstNamed (afterSlash t) cs = none) : vfsOpen l path flags s = (0#64, s) :=
  vfsOpen_missing flags (h.findDevice_none (skipSlash_text ht) hfirst)

/-- A path is opened with the operations of the first device of its name, and with no others. -/
theorem Listed.opensOn_iff (h : Listed s cs) (ht : Spells path t) (flags : U32) (hroom : Room l s.mm)
    (hopen : ops.OpensAt s.dev) : OpensOn (vfsOpen l path flags s) ops ↔
      ∃ d, firstNamed (afterSlash t) cs = some d ∧ d.ops = ops := by
  cases hfirst : firstNamed (afterSlash t) cs with
  | none =>
    rw [h.open_none ht flags hfirst]
    simp [OpensOn]
  | some d =>
    obtain ⟨i, hfind, hi⟩ := h.findDevice_some (skipSlash_text ht) hfirst
    obtain ⟨p, s', heq, hp, hdev, hops⟩ := vfsOpen_found flags hroom hfind
    rw [(h.entry i d hi).2] at heq hops
    rw [heq]
    constructor
    · intro hopened
      exact ⟨d, rfl, openDevice_ops hops d.keeps hopened⟩
    · rintro ⟨_, hd, rfl⟩
      obtain rfl := Option.some.inj hd
      exact openDevice_opensOn hp hops d.keeps (hdev ▸ hopen)

end Open

section Reachable

theorem eq_replicate_of_cons_take {α : Type} {c : α} {u : List α} {n : Nat} (h : c :: u.take n = u) :
    u = List.replicate (n+1) c := by
  induction n generalizing u with
  | zero => exact h.symm
  | succ n ih =>
    cases u with
    | nil => cases h
    | cons d v =>
      obtain ⟨rfl, hv⟩ := List.cons.inj h
      rw [List.replicate_succ, ← ih hv]

/-- When the registry's version of a name is the one that `vfs_open` looks for. -/
theorem stored_eq_afterSlash_iff (t : List Byte) : t.take 31 = afterSlash t ↔
    (t.length ≤ 31 ∧ t.head? ≠ some (byte '/')) ∨ t = List.replicate 32 (byte '/') := by
  cases t with
  | nil => simp [afterSlash]
  | cons c u =>
    by_cases hc : c = byte '/'
    · subst hc
      have hcut : (byte '/' :: u).take 31 = byte '/' :: u.take 30 := rfl
      rw [afterSlash, if_pos rfl, hcut]
      constructor
      · intro h
        right
        rw [eq_replicate_of_cons_take h]
        rfl
      · rintro (⟨-, hhead⟩ | h)
        · exact absurd rfl hhead
        · have hu : u = List.replicate 31 (byte '/') := (List.cons.inj h).2
          rw [hu]
          rfl
    · rw [afterSlash, if_neg hc, List.take_eq_self_iff]
      constructor
      · intro h
        exact Or.inl ⟨h, by simpa using hc⟩
      · rintro (⟨h, -⟩ | h)
        · exact h
        · exact absurd (List.cons.inj h).1 hc

variable {l : Layout} {s₀ : Vfs δ}

theorem Room.registerAll (h : Room l s₀.mm) (calls : List (Registration δ)) :
    Room l (registerAll calls (vfsInit s₀)).mm := by
  rw [(registerAll_frame calls (vfsInit s₀)).1]
  exact h

theorem Listed.after (s₀ : Vfs δ) (calls : List (Registration δ)) :
    Listed (VirtualFs.registerAll calls (vfsInit s₀)) (calls.take 16) := by
  simpa using (Listed.init s₀).registerAll calls

theorem register_granted {calls : List (Registration δ)} {c : Registration δ}
    (hret : (vfsRegisterDevice c.name c.ops (registerAll calls (vfsInit s₀))).1 = 0) :
    Listed (registerAll (calls ++ [c]) (vfsInit s₀)) (calls ++ [c]) := by
  have hbefore := Listed.after s₀ calls
  have hlen : (calls.take 16).length < 16 := by
    refine lt_of_le_of_ne hbefore.fits fun hfull => ?_
    have hfail : vfsRegisterDevice c.name c.ops (registerAll calls (vfsInit s₀)) = (-1, _) :=
      hbefore.register_full c hfull
    rw [hfail] at hret
    cases hret
  have hshort : (calls ++ [c]).take 16 = calls ++ [c] := by
    rw [List.length_take] at hlen
    exact List.take_of_length_le (by simp; omega)
  have hafter := Listed.after s₀ (calls ++ [c])
  rw [hshort] at hafter
  exact hafter

theorem registerAll_concat (calls : List (Registration δ)) (c : Registration δ) (s : Vfs δ) :
    registerAll (calls ++ [c]) s = (vfsRegisterDevice c.name c.ops (registerAll calls s)).2 := by
  simp [registerAll, Vfs.register]

/-- An earlier device of the name that is looked for has the same operations, or there is none
and the name is kept as it is looked for. -/
def Registration.Clear (c : Registration δ) (calls : List (Registration δ)) : Prop :=
  (∃ d, firstNamed (afterSlash c.text) calls = some d ∧ d.ops = c.ops) ∨
  (firstNamed (afterSlash c.text) calls = none ∧
    ((c.text.length ≤ 31 ∧ c.text.head? ≠ some (byte '/')) ∨ c.text = List.replicate 32 (byte '/')))

theorem clear_iff (calls : List (Registration δ)) (c : Registration δ) : c.Clear calls ↔
    ∃ d, firstNamed (afterSlash c.text) (calls ++ [c]) = some d ∧ d.ops = c.ops := by
  rw [Registration.Clear, ← stored_eq_afterSlash_iff]
  have hfirst : firstNamed (afterSlash c.text) (calls ++ [c]) =
      (firstNamed (afterSlash c.text) calls).or (firstNamed (afterSlash c.text) [c]) := List.find?_append
  rw [hfirst]
  cases firstNamed (afterSlash c.text) calls with
  | some d => simp
  | none =>
    by_cases hself : c.stored = afterSlash c.text
    · have hone : firstNamed (afterSlash c.text) [c] = some c :=
        List.find?_cons_of_pos (decide_eq_true hself)
      rw [hone]
      simpa [Registration.stored] using hself
    · have hone : firstNamed (afterSlash c.text) [c] = none := by
        rw [firstNamed, List.find?_cons_of_neg (by simpa using hself), List.find?_nil]
      rw [hone]
      simpa [Registration.stored] using hself

theorem registered_reachable_iff (calls : List (Registration δ)) (c : Registration δ) (flags : U32)
    (hroom : Room l s₀.mm) (hopen : c.ops.OpensAt s₀.dev)
    (hret : (vfsRegisterDevice c.name c.ops (registerAll calls (vfsInit s₀))).1 = 0) :
    OpensOn (vfsOpen l c.name flags
      (vfsRegisterDevice c.name c.ops (registerAll calls (vfsInit s₀))).2) c.ops ↔ c.Clear calls := by
  have hlisted := register_granted hret
  have hdev : c.ops.OpensAt (registerAll (calls ++ [c]) (vfsInit s₀)).dev := by
    rw [(registerAll_frame (calls ++ [c]) (vfsInit s₀)).2]
    exact hopen
  rw [← registerAll_concat, clear_iff]
  exact hlisted.opensOn_iff c.spells flags (hroom.registerAll (calls ++ [c])) hdev

/-- Operations without any function. -/
def noOps : FileOps Unit := ⟨none, none, none, none, none⟩

def plainDevice (text : List Byte) (h : 0#8 ∉ text) : Registration Unit :=
  ⟨cstring text, text, cstring_spells h, noOps, fun _ hh => by cases hh⟩

def emptyVfs : Vfs Unit :=
  ⟨fun _ => ⟨fun _ => 0#8, noOps, false⟩, 1#32, mmInit smallLayout fun _ => 7#64,
    fun _ => ⟨0#32, 0#32, 0#32, 0#32, none, 0#64⟩, fun _ => ⟨0#64, 0#32, 0#32⟩, ()⟩

theorem noOps_opens (d : Unit) : noOps.OpensAt d := by
  intro hook hh
  cases hh

theorem room_emptyVfs : Room smallLayout emptyVfs.mm := ⟨by decide, by decide⟩

/-- "testdev" in an empty registry. -/
theorem registered_reachable_testdev :
    OpensOn (vfsOpen smallLayout (cstring ("testdev".toList.map byte)) 0#32
      (vfsRegisterDevice (cstring ("testdev".toList.map byte)) noOps (vfsInit emptyVfs)).2) noOps := by
  have hret := ((Listed.init emptyVfs).register (plainDevice ("testdev".toList.map byte) (by decide))
    (by decide)).1
  refine (registered_reachable_iff [] (plainDevice ("testdev".toList.map byte) (by decide)) 0#32
    room_emptyVfs (noOps_opens ()) hret).mpr (Or.inr ⟨rfl, Or.inl ?_⟩)
  exact ⟨by decide, by decide⟩

/-- "/dev" is registered and is not found again under this name. -/
theorem slash_name_unreachable : Room smallLayout emptyVfs.mm ∧ noOps.OpensAt emptyVfs.dev ∧
    Spells (cstring ("/dev".toList.map byte)) ("/dev".toList.map byte) ∧
    (vfsRegisterDevice (cstring ("/dev".toList.map byte)) noOps (vfsInit emptyVfs)).1 = 0 ∧
    ¬ OpensOn (vfsOpen smallLayout (cstring ("/dev".toList.map byte)) 0#32
      (vfsRegisterDevice (cstring ("/dev".toList.map byte)) noOps (vfsInit emptyVfs)).2) noOps := by
  obtain ⟨c, hc⟩ : ∃ c, c = plainDevice ("/dev".toList.map byte) (by decide) := ⟨_, rfl⟩
  obtain ⟨hret, hlisted⟩ := (Listed.init emptyVfs).register c (by decide)
  have hname : c.name = cstring ("/dev".toList.map byte) := by rw [hc]; rfl
  have hops : c.ops = noOps := by rw [hc]; rfl
  rw [Vfs.register, hname, hops] at hret hlisted
  have hspells : Spells (cstring ("/dev".toList.map byte)) ("/dev".toList.map byte) :=
    cstring_spells (by decide)
  refine ⟨room_emptyVfs, noOps_opens (), hspells, hret, ?_⟩
  have hmiss : firstNamed (afterSlash ("/dev".toList.map byte)) ([] ++ [c]) = none := by
    rw [hc]
    rfl
  rw [hlisted.open_none hspells 0#32 hmiss]
  exact fun h => h.1 rfl

end Reachable

section Exact

/-- At most 31 characters, and no slash at the front. -/
def PlainName (t : List Byte) : Prop := t.length ≤ 31 ∧ t.head? ≠ some (byte '/')

theorem PlainName.afterSlash {t : List Byte} (h : PlainName t) : afterSlash t = t := by
  cases t with
  | nil => rfl
  | cons c cs =>
    have hc : c ≠ byte '/' := by simpa using h.2
    rw [VirtualFs.afterSlash, if_neg hc]

/-- The first call with the name `n`, as the caller wrote it. -/
def firstCall (n : List Byte) (calls : List (Registration δ)) : Option (Registration δ) :=
  calls.find? fun c => decide (c.text = n)

theorem firstNamed_eq_firstCall {calls : List (Registration δ)} (h : ∀ c ∈ calls, PlainName c.text)
    (n : List Byte) : firstNamed n calls = firstCall n calls := by
  induction calls with
  | nil => rfl
  | cons c calls ih =>
    rw [firstNamed, firstCall, List.find?_cons, List.find?_cons, Registration.stored,
      List.take_of_length_le (h c List.mem_cons_self).1]
    split
    · rfl
    · exact ih fun d hd => h d (List.mem_cons_of_mem c hd)

theorem firstCall_some {calls : List (Registration δ)} {n : List Byte} {c : Registration δ}
    (h : firstCall n calls = some c) : c ∈ calls ∧ c.text = n := by
  rw [firstCall] at h
  have hname := List.find?_some h
  exact ⟨List.mem_of_find?_eq_some h, by simpa using hname⟩

theorem firstCall_of_mem {calls : List (Registration δ)} {n : List Byte} {c : Registration δ}
    (hc : c ∈ calls) (hname : c.text = n) : ∃ d, firstCall n calls = some d := by
  rw [← Option.isSome_iff_exists, firstCall, List.find?_isSome]
  exact ⟨c, hc, by simpa using hname⟩

variable {l : Layout} {s₀ : Vfs δ} {calls : List (Registration δ)} {n : List Byte} {path : Nat → Byte}

/-- The name by itself and behind a slash. -/
theorem afterSlash_of_path (hn : PlainName n) (hpath : Spells path n ∨ Spells path (byte '/' :: n)) :
    ∃ t, Spells path t ∧ afterSlash t = n := by
  rcases hpath with h | h
  · exact ⟨n, h, hn.afterSlash⟩
  · exact ⟨byte '/' :: n, h, by rw [afterSlash, if_pos rfl]⟩

theorem lookup_exact (hcalls : ∀ c ∈ calls, PlainName c.text) (hn : PlainName n)
    (hpath : Spells path n ∨ Spells path (byte '/' :: n)) (flags : U32) (hroom : Room l s₀.mm)
    (hopen : ∀ c, firstCall n (calls.take 16) = some c → c.ops.OpensAt s₀.dev) :
    ((vfsOpen l path flags (registerAll calls (vfsInit s₀))).1 ≠ 0#64 ↔ ∃ c ∈ calls.take 16, c.text = n) ∧
    (∀ c, firstCall n (calls.take 16) = some c →
      OpensOn (vfsOpen l path flags (registerAll calls (vfsInit s₀))) c.ops) ∧
    (∀ i, findDevice (registerAll calls (vfsInit s₀)) (skipSlash path) = some i →
      Spells ((registerAll calls (vfsInit s₀)).devices i).name n) ∧
    (∀ k c, 16 ≤ k → calls[k]? = some c →
      vfsRegisterDevice c.name c.ops (registerAll (calls.take k) (vfsInit s₀)) =
        (-1, registerAll (calls.take k) (vfsInit s₀))) := by
  obtain ⟨t, ht, hslash⟩ := afterSlash_of_path hn hpath
  have hlisted := Listed.after s₀ calls
  have hfirst : firstNamed (afterSlash t) (calls.take 16) = firstCall n (calls.take 16) := by
    rw [hslash]
    exact firstNamed_eq_firstCall (fun c hc => hcalls c (List.mem_of_mem_take hc)) n
  have hfound (c : Registration δ) (hc : firstCall n (calls.take 16) = some c) :
      OpensOn (vfsOpen l path flags (registerAll calls (vfsInit s₀))) c.ops := by
    refine (hlisted.opensOn_iff ht flags (hroom.registerAll calls) ?_).mpr ⟨c, hfirst.trans hc, rfl⟩
    rw [(registerAll_frame calls (vfsInit s₀)).2]
    exact hopen c hc
  refine ⟨?_, hfound, ?_, ?_⟩
  · constructor
    · intro hne
      cases hc : firstCall n (calls.take 16) with
      | none => exact absurd (by rw [hlisted.open_none ht flags (hfirst.trans hc)]) hne
      | some c =>
        obtain ⟨hmem, hname⟩ := firstCall_some hc
        exact ⟨c, hmem, hname⟩
    · rintro ⟨c, hc, hname⟩
      obtain ⟨d, hd⟩ := firstCall_of_mem hc hname
      exact (hfound d hd).1
  · intro i hi
    have hmatch := List.find?_some hi
    obtain ⟨c, hc, hname⟩ := (hlisted.matches_iff (skipSlash_text ht) i).mp hmatch
    rw [hslash] at hname
    exact hname ▸ (hlisted.entry i c hc).1
  · intro k c hk hc
    have hlen := (List.getElem?_eq_some_iff.mp hc).1
    have hbefore := Listed.after s₀ (calls.take k)
    refine hbefore.register_full c ?_
    simp only [List.length_take]
    omega

/-- "uart" beside a device whose name it begins. -/
theorem lookup_exact_uart : OpensOn (vfsOpen smallLayout (cstring ("/uart".toList.map byte)) 0#32
    (registerAll [plainDevice ("uart0".toList.map byte) (by decide), plainDevice ("uart".toList.map byte) (by decide)]
      (vfsInit emptyVfs))) noOps := by
  refine (lookup_exact ?_ ⟨?_, ?_⟩ (Or.inr (cstring_spells ?_)) 0#32 room_emptyVfs ?_).2.1
    (plainDevice ("uart".toList.map byte) (by decide)) rfl
  · intro c hc
    simp only [List.mem_cons, List.not_mem_nil, or_false] at hc
    rcases hc with rfl | rfl
    · exact ⟨by decide, by decide⟩
    · exact ⟨by decide, by decide⟩
  · decide
  · decide
  · decide
  · intro c hc hook hh
    have hops : c.ops = noOps := by
      rw [← Option.some.inj hc]
      rfl
    rw [hops] at hh
    cases hh

end Exact

end RiscvOs.VirtualFs
