/-
The serializer pools and their clients.

The factory hands out pointers to instances, and every instance has a state of its own, so it must not be
with two clients.  `SerDesGet` and `SerDesPut` work under the mutex of the factory.  Here they are modelled
step by step for any number of clients, which between their calls work with what they hold.  A program may
have serializers of its own beside the intrinsic ones.

Main definitions:

* `CodePort.SerDesClass` — the serializers of a program;
* `CodePort.PoolStore` — the pools, the instances, and who holds them;
* `CodePort.PoolCalls`, `CodePort.clientStep` — the calls in progress, and one step of any client;
* `CodePort.PoolStore.Exclusive`, `PoolStore.Free` — who may have an instance;
* `CodePort.Guarded` — the invariant, with what the holder of the mutex knows;
* `CodePort.PoolStore.contentsOf` — the factory of `CodePort/SerDesFactory.lean` that the pools make up.

Main results:

* `CodePort.Guarded.step` — **every step keeps the invariant**;
* `CodePort.exists_advance` — a client inside a call is never stuck, and comes nearer to its return;
* `CodePort.serDes_pools` — **no pool runs dry and no instance is shared**, after any steps;
* `CodePort.Guarded.serDesGet_contentsOf`, `CodePort.exists_factory_run` — **the calls refine the
  factory**: what they return and what the pools contain is what calls one after the other would return
  and leave there.
-/

import CodePort.KeyedQueues
import CodePort.SerDesFactory
import Mathlib.Logic.Function.Basic

set_option relaxedAutoImplicit false
set_option autoImplicit false

namespace CodePort

open KeyedList KeyedQueues StepSystem

/-! ### Instances -/

/-- The serializers of a program: the intrinsic ones, and those that it adds. -/
class SerDesClass (κ : Type) where
  /-- Return the serializer name. -/
  nameGet : κ → List UInt8
  /-- Create and return an instance. -/
  createInstance : κ → κ
  intrinsic : SerDes → κ
  nameGet_intrinsic (sd : SerDes) : nameGet (intrinsic sd) = sd.nameGet

/-- A program without serializers of its own. -/
instance SerDes.instSerDesClass : SerDesClass SerDes where
  nameGet := SerDes.nameGet
  createInstance := SerDes.createInstance
  intrinsic := id
  nameGet_intrinsic _ := rfl

open SerDesClass

/-- The pools with the instances.  Instances are known by their addresses. -/
structure PoolStore (κ ι : Type) where
  /-- Encoder pools. -/
  pools : List (List UInt8 × List ℕ)
  /-- The instance at an address. -/
  inst : ℕ → κ
  /-- Where there are instances. -/
  live : List ℕ
  /-- The instances that a client has got or created, and has not given away. -/
  held : ι → List ℕ

variable {κ ι : Type} [SerDesClass κ]

namespace PoolStore

/-- The names of the registered serializers. -/
def names (s : PoolStore κ ι) : List (List UInt8) := s.pools.map Prod.fst

/-- No pools, and no instances. -/
def empty : PoolStore κ ι := ⟨[], fun _ => intrinsic .native, [], fun _ => []⟩

/-- Put an instance at the end of its pool. -/
def push (s : PoolStore κ ι) (p : ℕ) : PoolStore κ ι :=
  { s with pools := pushBack (nameGet (s.inst p)) p s.pools }

/-- Take the first instance of a pool away. -/
def pop (s : PoolStore κ ι) (enc : List UInt8) : PoolStore κ ι :=
  { s with pools := popFront enc s.pools }

/-- The instance at an address is made, or changes its state. -/
def assign (s : PoolStore κ ι) (p : ℕ) (sd : κ) : PoolStore κ ι :=
  { s with inst := Function.update s.inst p sd }

/-- `new`, at a free address. -/
def create (s : PoolStore κ ι) (p : ℕ) (sd : κ) : PoolStore κ ι :=
  { s.assign p sd with live := p :: s.live }

/-- `delete`. -/
def destroy (s : PoolStore κ ι) (p : ℕ) : PoolStore κ ι := { s with live := s.live.erase p }

/-- The constructor; `new` has returned the three addresses. -/
def construct (native xml idl : ℕ) : PoolStore κ ι :=
  let s := (empty.create native (intrinsic .native)).push native
  let s := (s.create xml (intrinsic .xml)).push xml
  (s.create idl (intrinsic (.idl SerDesIdl.construct))).push idl

variable [DecidableEq ι]

/-- A client has got an instance. -/
def hold (s : PoolStore κ ι) (i : ι) (p : ℕ) : PoolStore κ ι :=
  { s with held := Function.update s.held i (p :: s.held i) }

/-- A client gives an instance away. -/
def release (s : PoolStore κ ι) (i : ι) (p : ℕ) : PoolStore κ ι :=
  { s with held := Function.update s.held i ((s.held i).erase p) }

end PoolStore

/-! ### Calls -/

/-- Where a client stands. -/
inductive ClientPos
  | outside
  /-- In `SerDesGet`, it has locked the mutex. -/
  | searching (enc : List UInt8)
  /-- In `SerDesGet`, it has found one instance in the pool and creates another. -/
  | creating (enc : List UInt8) (front : ℕ)
  /-- In `SerDesGet`, it will unlock the mutex and return. -/
  | returning (enc : List UInt8) (rv : Option ℕ)
  /-- In `SerDesPut`, it has locked the mutex. -/
  | putting (p : ℕ)
  /-- In `SerDesPut`, it will unlock the mutex and return. -/
  | leaving
  deriving DecidableEq

/-- How many steps are left of a call. -/
def ClientPos.stepsLeft : ClientPos → ℕ
  | .outside => 0
  | .searching _ => 3
  | .creating _ _ => 2
  | .returning _ _ => 1
  | .putting _ => 2
  | .leaving => 1

/-- A factory, with any number of clients. -/
structure PoolCalls (κ ι : Type) where
  store : PoolStore κ ι
  /-- The client that holds the mutex. -/
  mutex : Option ι
  clients : ι → ClientPos

/-- A factory that has just been constructed. -/
def PoolCalls.construct (native xml idl : ℕ) : PoolCalls κ ι :=
  ⟨PoolStore.construct native xml idl, none, fun _ => .outside⟩

/-- The steps. -/
inductive ClientOp (κ ι : Type)
  /-- A client calls `SerDesGet` and locks the mutex. -/
  | serDesGet (i : ι) (enc : List UInt8)
  /-- A client calls `SerDesPut` with a pointer, and locks the mutex unless it is `NULL`. -/
  | serDesPut (i : ι) (p : Option ℕ)
  /-- A client inside a call takes its next step; if it creates an instance, `new` returns `fresh`. -/
  | advance (i : ι) (fresh : ℕ)
  /-- A client creates an instance by itself. -/
  | create (i : ι) (p : ℕ) (sd : κ)
  /-- A client works with an instance that it holds, and leaves it in another state. -/
  | use (i : ι) (p : ℕ) (sd : κ)
  /-- A client deletes an instance that it holds. -/
  | delete (i : ι) (p : ℕ)

/-- What can be seen of a step. -/
inductive ClientEvent (ι : Type)
  | inside
  /-- `SerDesGet` returns. -/
  | got (i : ι) (enc : List UInt8) (rv : Option ℕ)
  /-- `SerDesPut` returns. -/
  | put (i : ι) (rv : Bool)
  deriving DecidableEq

section Steps

variable [DecidableEq ι]

namespace PoolCalls

/-- A client moves. -/
def moved (w : PoolCalls κ ι) (i : ι) (pos : ClientPos) (store : PoolStore κ ι) : PoolCalls κ ι :=
  { w with store := store, clients := Function.update w.clients i pos }

/-- The search of `SerDesGet` in the pool map. -/
def search (w : PoolCalls κ ι) (i : ι) (enc : List UInt8) : PoolCalls κ ι :=
  match lookup w.store.pools enc with
  | some (front :: _ :: _) => w.moved i (.returning enc (some front)) ((w.store.pop enc).hold i front)
  -- the last one stays, so that more can be made
  | some [front] => w.moved i (.creating enc front) w.store
  | some [] => w.moved i (.returning enc none) w.store
  | none => w.moved i (.returning enc none) w.store

/-- The next step of a client; the steps are those of `SerDesGet` and `SerDesPut`. -/
def advance (w : PoolCalls κ ι) (i : ι) (fresh : ℕ) : Option (ClientEvent ι × PoolCalls κ ι) :=
  match w.clients i with
  | .outside => none
  | .searching enc => some (.inside, w.search i enc)
  | .creating enc front =>
      if fresh ∈ w.store.live then none
      else
        let sd := createInstance (w.store.inst front)
        some (.inside, w.moved i (.returning enc (some fresh)) ((w.store.create fresh sd).hold i fresh))
  | .returning enc rv => some (.got i enc rv, { w.moved i .outside w.store with mutex := none })
  | .putting p => some (.inside, w.moved i .leaving ((w.store.release i p).push p))
  | .leaving => some (.put i true, { w.moved i .outside w.store with mutex := none })

end PoolCalls

/-- One step of a client.  There is none for a client that waits for the mutex; and a client uses, gives
away and deletes only what it holds. -/
def clientStep (w : PoolCalls κ ι) : ClientOp κ ι → Option (ClientEvent ι × PoolCalls κ ι)
  | .serDesGet i enc =>
      if w.clients i = .outside ∧ w.mutex = none then
        some (.inside, { w.moved i (.searching enc) w.store with mutex := some i })
      else none
  | .serDesPut i none => if w.clients i = .outside then some (.put i false, w) else none
  | .serDesPut i (some p) =>
      if w.clients i = .outside ∧ w.mutex = none ∧ p ∈ w.store.held i then
        some (.inside, { w.moved i (.putting p) w.store with mutex := some i })
      else none
  | .advance i fresh => w.advance i fresh
  | .create i p sd =>
      if w.clients i = .outside ∧ p ∉ w.store.live then
        some (.inside, { w with store := (w.store.create p sd).hold i p })
      else none
  | .use i p sd =>
      if w.clients i = .outside ∧ p ∈ w.store.held i then
        some (.inside, { w with store := w.store.assign p sd })
      else none
  | .delete i p =>
      if w.clients i = .outside ∧ p ∈ w.store.held i then
        some (.inside, { w with store := (w.store.release i p).destroy p })
      else none

end Steps

/-! ### Exclusive instances -/

namespace PoolStore

/-- **The invariant of the instances.** -/
structure Exclusive (s : PoolStore κ ι) : Prop where
  /-- There is something in every pool, and it has the name of the pool. -/
  stocked : ∀ e ∈ s.pools, e.2 ≠ [] ∧ ∀ p ∈ e.2, nameGet (s.inst p) = e.1
  pooled_once : (contents s.pools).Nodup
  held_once : ∀ i, (s.held i).Nodup
  held_apart : ∀ i j p, p ∈ s.held i → p ∈ s.held j → i = j
  held_or_pooled : ∀ i, ∀ p ∈ s.held i, p ∉ contents s.pools
  pooled_live : ∀ p ∈ contents s.pools, p ∈ s.live
  held_live : ∀ i, ∀ p ∈ s.held i, p ∈ s.live

/-- An instance that is neither pooled nor held. -/
structure Free (s : PoolStore κ ι) (p : ℕ) : Prop where
  not_pooled : p ∉ contents s.pools
  not_held : ∀ i, p ∉ s.held i
  live : p ∈ s.live

variable {s : PoolStore κ ι} {p q : ℕ} {sd : κ} {enc name : List UInt8} {i j : ι}

theorem exclusive_empty : (empty : PoolStore κ ι).Exclusive where
  stocked _ he := absurd he List.not_mem_nil
  pooled_once := List.nodup_nil
  held_once _ := List.nodup_nil
  held_apart _ _ _ hp := absurd hp List.not_mem_nil
  held_or_pooled _ _ hp := absurd hp List.not_mem_nil
  pooled_live _ hp := absurd hp List.not_mem_nil
  held_live _ _ hp := absurd hp List.not_mem_nil

theorem Exclusive.not_pooled (h : s.Exclusive) (hp : p ∉ s.live) : p ∉ contents s.pools :=
  fun hmem => hp (h.pooled_live p hmem)

/-- An instance that is not pooled may change. -/
theorem Exclusive.assign (h : s.Exclusive) (hp : p ∉ contents s.pools) (sd : κ) :
    (s.assign p sd).Exclusive where
  stocked e he := by
    refine ⟨(h.stocked e he).1, fun q hq => ?_⟩
    have hne : q ≠ p := by
      rintro rfl
      exact hp (List.mem_flatMap.2 ⟨e, he, hq⟩)
    have hsame : (s.assign p sd).inst q = s.inst q := Function.update_of_ne hne ..
    rw [hsame]
    exact (h.stocked e he).2 q hq
  pooled_once := h.pooled_once
  held_once := h.held_once
  held_apart := h.held_apart
  held_or_pooled := h.held_or_pooled
  pooled_live := h.pooled_live
  held_live := h.held_live

/-- A new instance is free. -/
theorem Exclusive.create (h : s.Exclusive) (hp : p ∉ s.live) (sd : κ) :
    (s.create p sd).Exclusive ∧ (s.create p sd).Free p := by
  have hpooled := h.not_pooled hp
  have hheld (i : ι) : p ∉ s.held i := fun hmem => hp (h.held_live i p hmem)
  obtain ⟨hstocked, honce, hheldOnce, hapart, hor, -, -⟩ := h.assign hpooled sd
  refine ⟨⟨hstocked, honce, hheldOnce, hapart, hor, fun q hq => ?_, fun i q hq => ?_⟩, hpooled, hheld,
    List.mem_cons_self⟩
  · exact List.mem_cons_of_mem p (h.pooled_live q hq)
  · exact List.mem_cons_of_mem p (h.held_live i q hq)

/-- A free instance may be deleted. -/
theorem Exclusive.destroy (h : s.Exclusive) (hp : s.Free p) : (s.destroy p).Exclusive := by
  refine { h with pooled_live := fun q hq => ?_, held_live := fun i q hq => ?_ }
  · have hne : q ≠ p := by
      rintro rfl
      exact hp.not_pooled hq
    exact (List.mem_erase_of_ne hne).2 (h.pooled_live q hq)
  · have hne : q ≠ p := by
      rintro rfl
      exact hp.not_held i hq
    exact (List.mem_erase_of_ne hne).2 (h.held_live i q hq)

/-- A free instance may be put into its pool. -/
theorem Exclusive.push (h : s.Exclusive) (hp : s.Free p) : (s.push p).Exclusive := by
  have hperm := contents_pushBack (nameGet (s.inst p)) p s.pools
  refine { h with stocked := ?_, pooled_once := ?_, held_or_pooled := ?_, pooled_live := ?_ }
  · refine forall_pushBack (P := fun key q => q ≠ [] ∧ ∀ p ∈ q, nameGet (s.inst p) = key) h.stocked
      ⟨List.cons_ne_nil p [], fun q hq => List.mem_singleton.1 hq ▸ rfl⟩ fun q hq => ?_
    refine ⟨List.append_ne_nil_of_right_ne_nil q (List.cons_ne_nil p []), fun r hr => ?_⟩
    rcases List.mem_append.1 hr with hr | hr
    · exact hq.2 r hr
    · rw [List.mem_singleton.1 hr]
  · exact hperm.nodup_iff.2 (List.nodup_cons.2 ⟨hp.not_pooled, h.pooled_once⟩)
  · intro i q hq hmem
    rcases List.mem_cons.1 (hperm.mem_iff.1 hmem) with rfl | hmem
    · exact hp.not_held i hq
    · exact h.held_or_pooled i q hq hmem
  · intro q hq
    rcases List.mem_cons.1 (hperm.mem_iff.1 hq) with rfl | hq
    · exact hp.live
    · exact h.pooled_live q hq

/-- An instance that is taken out of a pool is free, and the pool keeps another one. -/
theorem Exclusive.pop {front : ℕ} {pool : List ℕ} (h : s.Exclusive)
    (hlook : lookup s.pools enc = some (front :: q :: pool)) :
    (s.pop enc).Exclusive ∧ (s.pop enc).Free front := by
  have hperm := contents_popFront hlook
  obtain ⟨hnot, honce⟩ := List.nodup_cons.1 (hperm.nodup_iff.1 h.pooled_once)
  have hfront : front ∈ contents s.pools := hperm.mem_iff.2 List.mem_cons_self
  have hrest {p : ℕ} (hp : p ∈ contents (s.pop enc).pools) : p ∈ contents s.pools :=
    hperm.mem_iff.2 (List.mem_cons_of_mem front hp)
  constructor
  · refine { h with stocked := ?_, pooled_once := honce, held_or_pooled := ?_, pooled_live := ?_ }
    · refine forall_popFront (P := fun key q => q ≠ [] ∧ ∀ p ∈ q, nameGet (s.inst p) = key) hlook
        h.stocked fun hpool => ⟨List.cons_ne_nil q pool, fun p hp => ?_⟩
      exact hpool.2 p (List.mem_cons_of_mem front hp)
    · exact fun i p hp hmem => h.held_or_pooled i p hp (hrest hmem)
    · exact fun p hp => h.pooled_live p (hrest hp)
  · exact ⟨hnot, fun i hi => h.held_or_pooled i front hi hfront, h.pooled_live front hfront⟩

section Held

variable [DecidableEq ι]

omit [SerDesClass κ] in
theorem held_hold_self (s : PoolStore κ ι) (i : ι) (p : ℕ) : (s.hold i p).held i = p :: s.held i :=
  Function.update_self ..

omit [SerDesClass κ] in
theorem held_hold_of_ne (h : j ≠ i) : (s.hold i p).held j = s.held j := Function.update_of_ne h ..

omit [SerDesClass κ] in
theorem held_release_self (s : PoolStore κ ι) (i : ι) (p : ℕ) :
    (s.release i p).held i = (s.held i).erase p :=
  Function.update_self ..

omit [SerDesClass κ] in
theorem held_release_of_ne (h : j ≠ i) : (s.release i p).held j = s.held j := Function.update_of_ne h ..

omit [SerDesClass κ] in
/-- What the clients hold when one has got an instance. -/
theorem mem_held_hold : q ∈ (s.hold i p).held j ↔ j = i ∧ q = p ∨ q ∈ s.held j := by
  rcases Decidable.eq_or_ne j i with rfl | hne
  · simp [held_hold_self]
  · simp [held_hold_of_ne hne, hne]

/-- What the clients hold when one has given an instance away. -/
theorem Exclusive.mem_held_release (h : s.Exclusive) :
    q ∈ (s.release i p).held j ↔ ¬ (j = i ∧ q = p) ∧ q ∈ s.held j := by
  rcases Decidable.eq_or_ne j i with rfl | hne
  · simp [held_release_self, (h.held_once j).mem_erase_iff]
  · simp [held_release_of_ne hne, hne]

/-- A client may have a free instance. -/
theorem Exclusive.hold (h : s.Exclusive) (hp : s.Free p) (i : ι) : (s.hold i p).Exclusive where
  stocked := h.stocked
  pooled_once := h.pooled_once
  held_once j := by
    rcases Decidable.eq_or_ne j i with rfl | hne
    · rw [held_hold_self]
      exact List.nodup_cons.2 ⟨hp.not_held j, h.held_once j⟩
    · rw [held_hold_of_ne hne]
      exact h.held_once j
  held_apart j k q hj hk := by
    rcases mem_held_hold.1 hj with ⟨rfl, rfl⟩ | hold
    · rcases mem_held_hold.1 hk with ⟨rfl, -⟩ | hk
      · rfl
      · exact absurd hk (hp.not_held k)
    · rcases mem_held_hold.1 hk with ⟨rfl, rfl⟩ | hk
      · exact absurd hold (hp.not_held j)
      · exact h.held_apart j k q hold hk
  held_or_pooled j q hq := by
    rcases mem_held_hold.1 hq with ⟨-, rfl⟩ | hq
    · exact hp.not_pooled
    · exact h.held_or_pooled j q hq
  pooled_live := h.pooled_live
  held_live j q hq := by
    rcases mem_held_hold.1 hq with ⟨-, rfl⟩ | hq
    · exact hp.live
    · exact h.held_live j q hq

/-- What a client gives away is free. -/
theorem Exclusive.release (h : s.Exclusive) (hp : p ∈ s.held i) :
    (s.release i p).Exclusive ∧ (s.release i p).Free p := by
  have hheld {j : ι} {q : ℕ} (hq : q ∈ (s.release i p).held j) : q ∈ s.held j :=
    (h.mem_held_release.1 hq).2
  refine ⟨⟨h.stocked, h.pooled_once, fun j => ?_, ?_, ?_, h.pooled_live, ?_⟩, ?_⟩
  · rcases Decidable.eq_or_ne j i with rfl | hne
    · rw [held_release_self]
      exact (h.held_once j).erase p
    · rw [held_release_of_ne hne]
      exact h.held_once j
  · exact fun j k q hj hk => h.held_apart j k q (hheld hj) (hheld hk)
  · exact fun j q hq => h.held_or_pooled j q (hheld hq)
  · exact fun j q hq => h.held_live j q (hheld hq)
  · refine ⟨h.held_or_pooled i p hp, fun j hj => ?_, h.held_live i p hp⟩
    obtain ⟨hne, hj⟩ := h.mem_held_release.1 hj
    exact hne ⟨h.held_apart j i p hj hp, rfl⟩

end Held

/-- An instance of the factory itself is made and put into its pool. -/
theorem Exclusive.create_push (h : s.Exclusive) (hp : p ∉ s.live) (sd : κ) :
    ((s.create p sd).push p).Exclusive :=
  (h.create hp sd).1.push (h.create hp sd).2

theorem live_construct {native xml idl : ℕ} (hnew : [native, xml, idl].Nodup) :
    xml ∉ [native] ∧ idl ∉ [xml, native] := by
  obtain ⟨hnative, hxml⟩ := List.nodup_cons.1 hnew
  simp only [List.mem_cons, List.not_mem_nil, or_false, not_or] at hnative ⊢
  exact ⟨Ne.symm hnative.1, fun heq => (List.nodup_cons.1 hxml).1 (heq ▸ List.mem_cons_self),
    Ne.symm hnative.2⟩

theorem exclusive_construct {native xml idl : ℕ} (hnew : [native, xml, idl].Nodup) :
    (construct native xml idl : PoolStore κ ι).Exclusive := by
  obtain ⟨hxml, hidl⟩ := live_construct hnew
  exact ((exclusive_empty.create_push List.not_mem_nil _).create_push hxml _).create_push hidl _

/-- The intrinsic serializers are registered. -/
theorem nameGet_mem_names_construct (native xml idl : ℕ) (sd : SerDes) :
    sd.nameGet ∈ (construct native xml idl : PoolStore κ ι).names := by
  simp only [names, construct, push, create, assign, Function.update_self, mem_keys_pushBack,
    nameGet_intrinsic]
  cases sd with
  | native => exact .inr (.inr (.inl rfl))
  | xml => exact .inr (.inl rfl)
  | idl ser => exact .inl rfl

end PoolStore

/-! ### What a step does to the instances -/

section Steps

variable [DecidableEq ι]

/-- What a step may do to the pools and the instances. -/
inductive PoolStore.Step : PoolStore κ ι → PoolStore κ ι → Prop
  | stay (s) : Step s s
  | pop {s i enc front q pool} : lookup s.pools enc = some (front :: q :: pool) →
      Step s ((s.pop enc).hold i front)
  | create {s i p sd} : p ∉ s.live → Step s ((s.create p sd).hold i p)
  | push {s i p} : p ∈ s.held i → Step s ((s.release i p).push p)
  | assign {s i p sd} : p ∈ s.held i → Step s (s.assign p sd)
  | destroy {s i p} : p ∈ s.held i → Step s ((s.release i p).destroy p)

/-- **The instances stay exclusive.** -/
theorem PoolStore.Exclusive.step {s s' : PoolStore κ ι} (h : s.Exclusive) (hstep : s.Step s') :
    s'.Exclusive := by
  cases hstep with
  | stay => exact h
  | pop hlook => exact (h.pop hlook).1.hold (h.pop hlook).2 _
  | create hp => exact (h.create hp _).1.hold (h.create hp _).2 _
  | push hp => exact (h.release hp).1.push (h.release hp).2
  | assign hp => exact h.assign (h.held_or_pooled _ _ hp) _
  | destroy hp => exact (h.release hp).1.destroy (h.release hp).2

/-- **What is registered stays registered.** -/
theorem PoolStore.Step.mem_names {s s' : PoolStore κ ι} {name : List UInt8} (hstep : s.Step s')
    (h : name ∈ s.names) : name ∈ s'.names := by
  cases hstep with
  | stay | create | assign | destroy => exact h
  | pop =>
      rw [PoolStore.names, PoolStore.hold, PoolStore.pop, keys_popFront]
      exact h
  | push => exact mem_keys_pushBack.2 (.inr h)

/-! ### Calls in progress -/

/-- What the holder of the mutex knows, where it stands. -/
def HoldsAt (s : PoolStore κ ι) (i : ι) : ClientPos → Prop
  | .outside => False
  | .searching _ => True
  | .creating enc front => lookup s.pools enc = some [front]
  | .returning enc none => enc ∉ s.names
  | .returning _ (some p) => p ∈ s.held i
  | .putting p => p ∈ s.held i
  | .leaving => True

/-- **The invariant of the calls.** -/
structure Guarded (w : PoolCalls κ ι) : Prop where
  exclusive : w.store.Exclusive
  /-- Only the holder of the mutex is inside a call. -/
  inside : ∀ i, w.clients i ≠ .outside → w.mutex = some i
  holder : ∀ i, w.mutex = some i → HoldsAt w.store i (w.clients i)

variable {w w' : PoolCalls κ ι} {i : ι} {pos : ClientPos} {store : PoolStore κ ι}

omit [SerDesClass κ] in
theorem clients_moved_self (w : PoolCalls κ ι) (i : ι) (pos : ClientPos) (store : PoolStore κ ι) :
    (w.moved i pos store).clients i = pos :=
  Function.update_self ..

omit [SerDesClass κ] in
theorem clients_moved_of_ne {j : ι} (h : j ≠ i) (pos : ClientPos) (store : PoolStore κ ι) :
    (w.moved i pos store).clients j = w.clients j :=
  Function.update_of_ne h ..

omit [DecidableEq ι] in
/-- The position of a client inside a call. -/
theorem Guarded.holdsAt (h : Guarded w) (hpos : w.clients i = pos) (hne : pos ≠ .outside) :
    w.mutex = some i ∧ HoldsAt w.store i pos := by
  have hmutex := h.inside i (hpos ▸ hne)
  exact ⟨hmutex, hpos ▸ h.holder i hmutex⟩

/-- A client locks the mutex. -/
theorem Guarded.lock (h : Guarded w) (hmutex : w.mutex = none) (hpos : HoldsAt w.store i pos) :
    Guarded { w.moved i pos w.store with mutex := some i } where
  exclusive := h.exclusive
  inside j hj := by
    rcases Decidable.eq_or_ne j i with rfl | hne
    · rfl
    · have hother := h.inside j (clients_moved_of_ne hne pos w.store ▸ hj)
      exact absurd (hother.symm.trans hmutex) (Option.some_ne_none j)
  holder j hj := by
    obtain rfl : i = j := Option.some.inj hj
    rw [show (w.moved i pos w.store).clients i = pos from clients_moved_self ..]
    exact hpos

/-- The holder of the mutex takes a step. -/
theorem Guarded.moved (h : Guarded w) (hmutex : w.mutex = some i) (hstep : w.store.Step store)
    (hpos : HoldsAt store i pos) : Guarded (w.moved i pos store) where
  exclusive := h.exclusive.step hstep
  inside j hj := by
    rcases Decidable.eq_or_ne j i with rfl | hne
    · exact hmutex
    · exact h.inside j (clients_moved_of_ne hne pos store ▸ hj)
  holder j hj := by
    obtain rfl : i = j := Option.some.inj (hmutex.symm.trans hj)
    rw [clients_moved_self]
    exact hpos

/-- The holder of the mutex unlocks it and returns. -/
theorem Guarded.unlock (h : Guarded w) (hmutex : w.mutex = some i) :
    Guarded { w.moved i .outside w.store with mutex := none } where
  exclusive := h.exclusive
  inside j hj := by
    rcases Decidable.eq_or_ne j i with rfl | hne
    · exact absurd (clients_moved_self w j .outside w.store) hj
    · have heq := hmutex.symm.trans (h.inside j (clients_moved_of_ne hne .outside w.store ▸ hj))
      exact absurd (Option.some.inj heq).symm hne
  holder j hj := absurd hj (Option.some_ne_none j).symm

/-- What a client does with its own instances between its calls is nothing to the holder of the
mutex. -/
theorem Guarded.own (h : Guarded w) (hout : w.clients i = .outside) (hstep : w.store.Step store)
    (hpools : store.pools = w.store.pools) (hheld : ∀ j, j ≠ i → store.held j = w.store.held j) :
    Guarded { w with store := store } where
  exclusive := h.exclusive.step hstep
  inside := h.inside
  holder j hj := by
    have hat := h.holder j hj
    have hne : j ≠ i := by
      rintro rfl
      rw [hout] at hat
      exact hat
    cases hpos : w.clients j with
    | outside => exact (hpos ▸ hat : HoldsAt w.store j .outside)
    | searching | leaving => trivial
    | creating enc front =>
        have hlook : HoldsAt w.store j (.creating enc front) := hpos ▸ hat
        exact (congrArg (lookup · enc) hpools).trans hlook
    | putting p =>
        have hp : HoldsAt w.store j (.putting p) := hpos ▸ hat
        rw [HoldsAt, hheld j hne]
        exact hp
    | returning enc rv =>
        have hrv : HoldsAt w.store j (.returning enc rv) := hpos ▸ hat
        cases rv with
        | none =>
            rw [HoldsAt, PoolStore.names, hpools]
            exact hrv
        | some p =>
            rw [HoldsAt, hheld j hne]
            exact hrv

/-- The search of `SerDesGet` finds no empty pool. -/
theorem Guarded.search (h : Guarded w) {enc : List UInt8} (hpos : w.clients i = .searching enc) :
    Guarded (w.search i enc) ∧ w.store.Step (w.search i enc).store := by
  obtain ⟨hmutex, -⟩ := h.holdsAt hpos ClientPos.noConfusion
  rw [PoolCalls.search]
  split
  next front q pool hlook =>
    have hfront : front ∈ ((w.store.pop enc).hold i front).held i :=
      PoolStore.mem_held_hold.2 (.inl ⟨rfl, rfl⟩)
    exact ⟨h.moved hmutex (.pop hlook) hfront, .pop hlook⟩
  next front hlook => exact ⟨h.moved hmutex (.stay _) hlook, .stay _⟩
  next hlook => exact absurd rfl (h.exclusive.stocked _ (mem_of_lookup hlook)).1
  next hlook => exact ⟨h.moved hmutex (.stay _) (lookup_eq_none_iff_notMem.1 hlook), .stay _⟩

/-- A step of a client inside a call. -/
theorem Guarded.advance {fresh : ℕ} {a : ClientEvent ι} (h : Guarded w)
    (hstep : w.advance i fresh = some (a, w')) : Guarded w' ∧ w.store.Step w'.store := by
  rw [PoolCalls.advance] at hstep
  cases hpos : w.clients i with
  | outside => simp [hpos] at hstep
  | searching enc =>
      simp only [hpos] at hstep
      obtain ⟨-, rfl⟩ := Prod.mk.inj (Option.some.inj hstep)
      exact h.search hpos
  | creating enc front =>
      obtain ⟨hmutex, -⟩ := h.holdsAt hpos ClientPos.noConfusion
      simp only [hpos] at hstep
      split_ifs at hstep with hfresh
      obtain ⟨-, rfl⟩ := Prod.mk.inj (Option.some.inj hstep)
      exact ⟨h.moved hmutex (.create hfresh) (PoolStore.mem_held_hold.2 (.inl ⟨rfl, rfl⟩)),
        .create hfresh⟩
  | putting p =>
      obtain ⟨hmutex, hp⟩ := h.holdsAt hpos ClientPos.noConfusion
      simp only [hpos] at hstep
      obtain ⟨-, rfl⟩ := Prod.mk.inj (Option.some.inj hstep)
      exact ⟨h.moved hmutex (.push hp) trivial, .push hp⟩
  | returning | leaving =>
      obtain ⟨hmutex, -⟩ := h.holdsAt hpos ClientPos.noConfusion
      simp only [hpos] at hstep
      obtain ⟨-, rfl⟩ := Prod.mk.inj (Option.some.inj hstep)
      exact ⟨h.unlock hmutex, .stay _⟩

/-- **Every step keeps the invariant.** -/
theorem Guarded.step {o : ClientOp κ ι} {a : ClientEvent ι} (h : Guarded w)
    (hstep : clientStep w o = some (a, w')) : Guarded w' ∧ w.store.Step w'.store := by
  cases o with
  | serDesGet i enc =>
      simp only [clientStep] at hstep
      split_ifs at hstep with hlock
      obtain ⟨-, rfl⟩ := Prod.mk.inj (Option.some.inj hstep)
      exact ⟨h.lock hlock.2 trivial, .stay _⟩
  | serDesPut i p =>
      cases p with
      | none =>
          simp only [clientStep] at hstep
          split_ifs at hstep
          obtain ⟨-, rfl⟩ := Prod.mk.inj (Option.some.inj hstep)
          exact ⟨h, .stay _⟩
      | some p =>
          simp only [clientStep] at hstep
          split_ifs at hstep with hlock
          obtain ⟨-, rfl⟩ := Prod.mk.inj (Option.some.inj hstep)
          exact ⟨h.lock hlock.2.1 hlock.2.2, .stay _⟩
  | advance i fresh => exact h.advance hstep
  | create i p sd =>
      simp only [clientStep] at hstep
      split_ifs at hstep with hp
      obtain ⟨-, rfl⟩ := Prod.mk.inj (Option.some.inj hstep)
      exact ⟨h.own hp.1 (.create hp.2) rfl fun j => PoolStore.held_hold_of_ne, .create hp.2⟩
  | use i p sd =>
      simp only [clientStep] at hstep
      split_ifs at hstep with hp
      obtain ⟨-, rfl⟩ := Prod.mk.inj (Option.some.inj hstep)
      exact ⟨h.own hp.1 (.assign hp.2) rfl fun _ _ => rfl, .assign hp.2⟩
  | delete i p =>
      simp only [clientStep] at hstep
      split_ifs at hstep with hp
      obtain ⟨-, rfl⟩ := Prod.mk.inj (Option.some.inj hstep)
      exact ⟨h.own hp.1 (.destroy hp.2) rfl fun j => PoolStore.held_release_of_ne, .destroy hp.2⟩

omit [DecidableEq ι] in
theorem guarded_construct {native xml idl : ℕ} (hnew : [native, xml, idl].Nodup) :
    Guarded (PoolCalls.construct native xml idl : PoolCalls κ ι) where
  exclusive := PoolStore.exclusive_construct hnew
  inside _ h := absurd rfl h
  holder i h := absurd h.symm (Option.some_ne_none i)

/-- What `SerDesGet` returns is held by its caller, unless the name is not registered. -/
theorem Guarded.got {o : ClientOp κ ι} {enc : List UInt8} {rv : Option ℕ} (h : Guarded w)
    (hstep : clientStep w o = some (.got i enc rv, w')) : HoldsAt w'.store i (.returning enc rv) := by
  cases o with
  | serDesGet | create | use | delete =>
      simp only [clientStep] at hstep
      split_ifs at hstep
      simp at hstep
  | serDesPut j p =>
      cases p <;> simp only [clientStep] at hstep <;> split_ifs at hstep <;> simp at hstep
  | advance j fresh =>
      simp only [clientStep, PoolCalls.advance] at hstep
      cases hpos : w.clients j with
      | outside | searching | putting | leaving => simp [hpos] at hstep
      | creating enc' front =>
          simp only [hpos] at hstep
          split_ifs at hstep
          simp at hstep
      | returning enc' rv' =>
          simp only [hpos, Option.some.injEq, Prod.mk.injEq, ClientEvent.got.injEq] at hstep
          obtain ⟨⟨rfl, rfl, rfl⟩, rfl⟩ := hstep
          exact (h.holdsAt hpos ClientPos.noConfusion).2

/-- **A client inside a call is never stuck**, and every step brings it nearer to its return. -/
theorem exists_advance {fresh : ℕ} (hin : w.clients i ≠ .outside) (hfresh : fresh ∉ w.store.live) :
    ∃ a w', clientStep w (.advance i fresh) = some (a, w') ∧
      (w'.clients i).stepsLeft < (w.clients i).stepsLeft := by
  simp only [clientStep, PoolCalls.advance]
  cases hpos : w.clients i with
  | outside => exact absurd hpos hin
  | searching enc =>
      refine ⟨_, _, rfl, ?_⟩
      rw [PoolCalls.search]
      split <;> rw [clients_moved_self] <;> simp [ClientPos.stepsLeft]
  | creating enc front =>
      simp only [if_neg hfresh]
      refine ⟨_, _, rfl, ?_⟩
      rw [clients_moved_self]
      exact Nat.one_lt_two
  | putting p =>
      refine ⟨_, _, rfl, ?_⟩
      rw [clients_moved_self]
      exact Nat.one_lt_two
  | returning | leaving =>
      refine ⟨_, _, rfl, ?_⟩
      rw [show (w.moved i .outside w.store).clients i = .outside from clients_moved_self ..]
      exact Nat.one_pos

end Steps

/-! ### The factory as a whole -/

namespace SerDesFactory

theorem poolPush_eq (name : List UInt8) (sd : SerDes) (pools : List (List UInt8 × List SerDes)) :
    poolPush name sd pools = pushBack name sd pools := by
  induction pools with
  | nil => rfl
  | cons e pools ih =>
      obtain ⟨key, pool⟩ := e
      rw [poolPush, pushBack, ih]

theorem poolTake_snd (pool : List SerDes) :
    (poolTake pool).2 = if 1 < pool.length then pool.tail else pool := by
  cases pool with
  | nil => rfl
  | cons sd pool => cases pool <;> simp [poolTake]

/-- The search through the pools ends at the pool with the name. -/
theorem poolGet_of_lookup {enc : List UInt8} {pools : List (List UInt8 × List SerDes)}
    {pool : List SerDes} (h : lookup pools enc = some pool) :
    poolGet enc pools =
      ((poolTake pool).1, if 1 < pool.length then popFront enc pools else pools) := by
  induction pools with
  | nil => exact absurd h (by simp [lookup])
  | cons e pools ih =>
      obtain ⟨key, pool'⟩ := e
      rw [lookup] at h
      rw [poolGet, popFront]
      by_cases hkey : key = enc
      · rw [if_pos hkey] at h
        obtain rfl := Option.some.inj h
        rw [if_pos hkey, if_pos hkey, poolTake_snd]
        split_ifs <;> rfl
      · rw [if_neg hkey] at h
        rw [if_neg hkey, if_neg hkey, ih h]
        split_ifs <;> rfl

theorem poolGet_of_lookup_none {enc : List UInt8} {pools : List (List UInt8 × List SerDes)}
    (h : lookup pools enc = none) : poolGet enc pools = (none, pools) := by
  induction pools with
  | nil => rfl
  | cons e pools ih =>
      obtain ⟨key, pool⟩ := e
      rw [lookup] at h
      split_ifs at h with hkey
      rw [poolGet, if_neg hkey, ih h]

end SerDesFactory

namespace PoolStore

variable {ι : Type} {s s' : PoolStore SerDes ι} {p : ℕ} {sd : SerDes} {enc : List UInt8}

/-- The factory that the pools make up. -/
def contentsOf (s : PoolStore SerDes ι) : SerDesFactory := ⟨mapAll s.inst s.pools⟩

theorem contentsOf_assign (hp : p ∉ contents s.pools) (sd : SerDes) :
    (s.assign p sd).contentsOf = s.contentsOf := by
  refine congrArg SerDesFactory.mk (mapAll_congr fun q hq => Function.update_of_ne ?_ ..)
  rintro rfl
  exact hp hq

theorem contentsOf_push (s : PoolStore SerDes ι) (p : ℕ) :
    (s.push p).contentsOf = (s.contentsOf.serDesPut (some (s.inst p))).2 := by
  refine congrArg SerDesFactory.mk ?_
  rw [SerDesFactory.poolPush_eq]
  exact mapAll_pushBack s.inst (nameGet (s.inst p)) p s.pools

/-- A pool with more than one instance hands out its first one. -/
theorem serDesGet_contentsOf_of_two {front q : ℕ} {pool : List ℕ}
    (hlook : lookup s.pools enc = some (front :: q :: pool)) :
    s.contentsOf.serDesGet enc = (some (s.inst front), (s.pop enc).contentsOf) := by
  have himage : lookup (mapAll s.inst s.pools) enc =
      some (s.inst front :: s.inst q :: pool.map s.inst) := by
    rw [lookup_mapAll, hlook]
    rfl
  rw [SerDesFactory.serDesGet, contentsOf, SerDesFactory.poolGet_of_lookup himage, contentsOf, pop,
    mapAll_popFront, if_pos (by simp)]
  rfl

/-- A pool with one instance hands out another. -/
theorem serDesGet_contentsOf_of_one {front : ℕ} (hlook : lookup s.pools enc = some [front]) :
    s.contentsOf.serDesGet enc = (some (createInstance (s.inst front)), s.contentsOf) := by
  have himage : lookup (mapAll s.inst s.pools) enc = some [s.inst front] := by
    rw [lookup_mapAll, hlook]
    rfl
  rw [SerDesFactory.serDesGet, contentsOf, SerDesFactory.poolGet_of_lookup himage, if_neg (by simp)]
  rfl

theorem serDesGet_contentsOf_of_none (hlook : lookup s.pools enc = none) :
    s.contentsOf.serDesGet enc = (none, s.contentsOf) := by
  have himage : lookup (mapAll s.inst s.pools) enc = none := by rw [lookup_mapAll, hlook, Option.map_none]
  rw [SerDesFactory.serDesGet, contentsOf, SerDesFactory.poolGet_of_lookup_none himage]

/-- An instance of the factory itself. -/
theorem contentsOf_create_push (h : s.Exclusive) (hp : p ∉ s.live) (sd : SerDes) :
    ((s.create p sd).push p).contentsOf = (s.contentsOf.serDesPut (some sd)).2 := by
  have hsame : (s.create p sd).contentsOf = s.contentsOf := contentsOf_assign (h.not_pooled hp) sd
  have hinst : (s.create p sd).inst p = sd := Function.update_self ..
  rw [contentsOf_push, hsame, hinst]

theorem contentsOf_construct {native xml idl : ℕ} (hnew : [native, xml, idl].Nodup) :
    (construct native xml idl : PoolStore SerDes ι).contentsOf = SerDesFactory.construct := by
  have hlive := live_construct hnew
  have hempty : (empty : PoolStore SerDes ι).Exclusive := exclusive_empty
  have hnative := hempty.create_push List.not_mem_nil (p := native) (intrinsic .native)
  have hxml := hnative.create_push hlive.1 (intrinsic .xml)
  rw [construct, contentsOf_create_push hxml hlive.2, contentsOf_create_push hnative hlive.1,
    contentsOf_create_push hempty List.not_mem_nil]
  rfl

variable [DecidableEq ι]

/-- What a step does to the pools is what a call does to the factory, or nothing. -/
theorem Step.exists_run (hstep : s.Step s') (h : s.Exclusive) :
    ∃ ops as, run SerDesFactory.factoryStep ops s.contentsOf = some (as, s'.contentsOf) := by
  have run_of_eq (heq : s'.contentsOf = s.contentsOf) :
      ∃ ops as, run SerDesFactory.factoryStep ops s.contentsOf = some (as, s'.contentsOf) :=
    ⟨[], [], by rw [heq, run_nil]⟩
  cases hstep with
  | stay => exact run_of_eq rfl
  | @pop i enc front q pool hlook =>
      refine ⟨[.serDesGet enc], [some (s.inst front)], ?_⟩
      refine run_cons_eq_some.2 ⟨_, _, [], ?_, rfl, rfl⟩
      exact congrArg some (serDesGet_contentsOf_of_two hlook)
  | @create i p sd hp => exact run_of_eq (contentsOf_assign (h.not_pooled hp) sd)
  | @push i p hp =>
      refine ⟨[.serDesPut (some (s.inst p))], [none], ?_⟩
      refine run_cons_eq_some.2 ⟨_, _, [], ?_, rfl, rfl⟩
      exact congrArg (fun fac => some (none, fac)) (contentsOf_push (s.release i p) p).symm
  | @assign i p sd hp => exact run_of_eq (contentsOf_assign (h.held_or_pooled i p hp) sd)
  | destroy => exact run_of_eq rfl

end PoolStore

section Factory

variable {ι : Type} [DecidableEq ι] {w w' : PoolCalls SerDes ι} {i : ι}

/-- **What `SerDesGet` is about to return is what the factory hands out.** -/
theorem Guarded.serDesGet_contentsOf {fresh : ℕ} {enc : List UInt8} {rv : Option ℕ}
    {a : ClientEvent ι} (h : Guarded w) (hstep : w.advance i fresh = some (a, w'))
    (hret : w'.clients i = .returning enc rv) :
    w.store.contentsOf.serDesGet enc = (rv.map w'.store.inst, w'.store.contentsOf) := by
  rw [PoolCalls.advance] at hstep
  cases hpos : w.clients i with
  | outside => simp [hpos] at hstep
  | searching enc' =>
      simp only [hpos] at hstep
      obtain ⟨-, rfl⟩ := Prod.mk.inj (Option.some.inj hstep)
      rw [PoolCalls.search] at hret ⊢
      split at hret <;> rw [clients_moved_self] at hret
      next front q pool hlook =>
        obtain ⟨rfl, rfl⟩ := ClientPos.returning.inj hret
        exact PoolStore.serDesGet_contentsOf_of_two hlook
      next front hlook => exact ClientPos.noConfusion hret
      next hlook => exact absurd rfl (h.exclusive.stocked _ (mem_of_lookup hlook)).1
      next hlook =>
        obtain ⟨rfl, rfl⟩ := ClientPos.returning.inj hret
        exact PoolStore.serDesGet_contentsOf_of_none hlook
  | creating enc' front =>
      obtain ⟨-, hlook⟩ := h.holdsAt hpos ClientPos.noConfusion
      simp only [hpos] at hstep
      split_ifs at hstep with hfresh
      obtain ⟨-, rfl⟩ := Prod.mk.inj (Option.some.inj hstep)
      rw [clients_moved_self] at hret
      obtain ⟨rfl, rfl⟩ := ClientPos.returning.inj hret
      have hpooled := h.exclusive.not_pooled hfresh
      have hinst : (Function.update w.store.inst fresh (createInstance (w.store.inst front))) fresh =
          createInstance (w.store.inst front) := Function.update_self ..
      refine (PoolStore.serDesGet_contentsOf_of_one hlook).trans (Prod.ext ?_ ?_)
      · exact congrArg some hinst.symm
      · exact (PoolStore.contentsOf_assign hpooled _).symm
  | putting p =>
      simp only [hpos] at hstep
      obtain ⟨-, rfl⟩ := Prod.mk.inj (Option.some.inj hstep)
      rw [clients_moved_self] at hret
      exact ClientPos.noConfusion hret
  | returning | leaving =>
      simp only [hpos] at hstep
      obtain ⟨-, rfl⟩ := Prod.mk.inj (Option.some.inj hstep)
      rw [show (w.moved i .outside w.store).clients i = .outside from clients_moved_self ..] at hret
      exact ClientPos.noConfusion hret

/-- **The calls refine the factory**: what the pools contain is what some calls one after the other leave
there. -/
theorem exists_factory_run {native xml idl : ℕ} (hnew : [native, xml, idl].Nodup)
    {ops : List (ClientOp SerDes ι)} {as : List (ClientEvent ι)}
    (h : run clientStep ops (PoolCalls.construct native xml idl) = some (as, w)) :
    ∃ calls answers, run SerDesFactory.factoryStep calls SerDesFactory.construct =
      some (answers, w.store.contentsOf) := by
  have hstep {w w' : PoolCalls SerDes ι} {o : ClientOp SerDes ι} {a : ClientEvent ι}
      (hw : Guarded w ∧ ∃ calls answers, run SerDesFactory.factoryStep calls SerDesFactory.construct =
        some (answers, w.store.contentsOf)) (hst : clientStep w o = some (a, w')) :
      Guarded w' ∧ ∃ calls answers, run SerDesFactory.factoryStep calls SerDesFactory.construct =
        some (answers, w'.store.contentsOf) := by
    obtain ⟨hguarded, calls, answers, hrun⟩ := hw
    obtain ⟨calls', answers', hrun'⟩ := (hguarded.step hst).2.exists_run hguarded.exclusive
    exact ⟨(hguarded.step hst).1, calls ++ calls', answers ++ answers', run_append hrun hrun'⟩
  refine (run_invariant hstep ⟨guarded_construct hnew, [], [], ?_⟩ h).2
  exact congrArg (fun fac => some ([], fac)) (PoolStore.contentsOf_construct hnew).symm

end Factory

/-! ### Any run -/

variable [DecidableEq ι]

/-- The names that are registered stay, and nobody asks for one of them in vain. -/
theorem Guarded.run_names {name : List UInt8} {w w' : PoolCalls κ ι} {ops : List (ClientOp κ ι)}
    {as : List (ClientEvent ι)} (h : Guarded w) (hname : name ∈ w.store.names)
    (hrun : run clientStep ops w = some (as, w')) :
    name ∈ w'.store.names ∧ ∀ i, .got i name none ∉ as := by
  have hstep {w w' : PoolCalls κ ι} {o : ClientOp κ ι} {a : ClientEvent ι}
      (hw : Guarded w ∧ name ∈ w.store.names) (hst : clientStep w o = some (a, w')) :
      (∀ i, a ≠ .got i name none) ∧ Guarded w' ∧ name ∈ w'.store.names := by
    obtain ⟨hguarded, hstore⟩ := hw.1.step hst
    refine ⟨?_, hguarded, hstore.mem_names hw.2⟩
    rintro i rfl
    exact hw.1.got hst (hstore.mem_names hw.2)
  obtain ⟨has, -, hname'⟩ := run_answers hstep ⟨h, hname⟩ hrun
  exact ⟨hname', fun i hi => has _ hi i rfl⟩

/-- **No pool runs dry and no instance is shared**, after any steps of any clients. -/
theorem serDes_pools {native xml idl : ℕ} (hnew : [native, xml, idl].Nodup)
    {ops : List (ClientOp κ ι)} {as : List (ClientEvent ι)} {w : PoolCalls κ ι}
    (hrun : run clientStep ops (PoolCalls.construct native xml idl) = some (as, w)) :
    (∀ e ∈ w.store.pools, e.2 ≠ [] ∧ ∀ p ∈ e.2, nameGet (w.store.inst p) = e.1) ∧
    (∀ i j p, p ∈ w.store.held i → p ∈ w.store.held j → i = j) ∧
    (∀ i, ∀ p ∈ w.store.held i, ∀ e ∈ w.store.pools, p ∉ e.2) ∧
    (contents w.store.pools).Nodup ∧ (∀ i, (w.store.held i).Nodup) ∧
    (∀ sd : SerDes, sd.nameGet ∈ w.store.names) ∧
    (∀ name ∈ w.store.names, ∀ ops' as' w', run clientStep ops' w = some (as', w') →
      name ∈ w'.store.names ∧ ∀ i, .got i name none ∉ as') ∧
    (∀ o i enc p w', clientStep w o = some (.got i enc (some p), w') → p ∈ w'.store.held i) ∧
    (∀ i fresh, w.clients i ≠ .outside → fresh ∉ w.store.live →
      ∃ a w', clientStep w (.advance i fresh) = some (a, w') ∧
        (w'.clients i).stepsLeft < (w.clients i).stepsLeft) := by
  have hnames (sd : SerDes) :
      sd.nameGet ∈ (PoolCalls.construct native xml idl : PoolCalls κ ι).store.names :=
    PoolStore.nameGet_mem_names_construct native xml idl sd
  have hstart : Guarded (PoolCalls.construct native xml idl : PoolCalls κ ι) := guarded_construct hnew
  have h : Guarded w := run_invariant (fun hw hst => (Guarded.step hw hst).1) hstart hrun
  refine ⟨h.exclusive.stocked, h.exclusive.held_apart, fun i p hp e he hmem => ?_,
    h.exclusive.pooled_once, h.exclusive.held_once, fun sd => (hstart.run_names (hnames sd) hrun).1,
    fun name hname ops' as' w' => h.run_names hname, fun o i enc p w' => h.got,
    fun i fresh => exists_advance⟩
  exact h.exclusive.held_or_pooled i p hp (List.mem_flatMap.2 ⟨e, he, hmem⟩)

/-- A run with two clients. -/
def sharedOps : List (ClientOp SerDes Bool) :=
  [.serDesGet true serDesNative, .advance true 3, .advance true 3, .advance true 3,
    .serDesGet false serDesNative, .advance false 4, .advance false 4, .advance false 4,
    .serDesPut true (some 3), .advance true 5, .advance true 5,
    .serDesGet false serDesNative, .advance false 5, .advance false 5]

/-- Two clients get an instance each; one of them returns its own, and the other gets the first one of
the pool. -/
theorem serDes_pools_shared :
    ∃ as w, run clientStep sharedOps (PoolCalls.construct 0 1 2) = some (as, w) ∧
      w.store.held false = [0, 4] ∧ lookup w.store.pools serDesNative = some [3] ∧
      (∀ i j p, p ∈ w.store.held i → p ∈ w.store.held j → i = j) ∧
      ∀ e ∈ w.store.pools, e.2 ≠ [] ∧ ∀ p ∈ e.2, nameGet (w.store.inst p) = e.1 := by
  have hrun : ∃ as w, run clientStep sharedOps (PoolCalls.construct 0 1 2) = some (as, w) ∧
      w.store.held false = [0, 4] ∧ lookup w.store.pools serDesNative = some [3] :=
    ⟨_, _, rfl, rfl, rfl⟩
  obtain ⟨as, w, hrun, hheld, hpool⟩ := hrun
  have hall := serDes_pools (by decide) hrun
  exact ⟨as, w, hrun, hheld, hpool, hall.2.1, hall.1⟩

end CodePort
