import Mathlib.Data.Set.Finite.Basic
import Yella.Agent.Model
import Yella.Agent.SavedState
import Yella.CInt
import Yella.Lib.Machine
import Yella.Lib.RedBlack
import Yella.Parcel.Pack

/-!
# Senders of the plugins' threads

`send_plugin_message` of `agent.c`. Each thread that calls it gets a sender of its own, which is
looked up by the thread's handle in a tree whose comparator cuts the difference of two handles
to an `int`.
-/

namespace Yella.Senders

open Comparator RedBlack

/-- `sndr` is the number of the sender, in the order in which they were created. -/
structure PluginSender where
  thread : UInt64
  sndr : Nat
  deriving DecidableEq, Repr

/-- `x - y` of two handles, as the `int` that the tree keeps it in. -/
def threadOrder (x y : UInt64) : Int := toInt32 ((x.toNat : Int) - y.toNat)

/-- `YELLA_SENDER_COMPARE` -/
def senderCompare (x y : PluginSender) : Int := threadOrder x.thread y.thread

structure Call where
  thread : UInt64
  pcl : YellaParcel
  /-- A new sender gets its socket. -/
  connects : Bool

structure Sent where
  thread : UInt64
  sndr : Nat
  message : FbParcel

structure State where
  pluginSenders : RbTree PluginSender
  /-- The threads that the senders were created for. -/
  created : List UInt64
  sent : List Sent

section
variable (utf : Utf) (ss : YellaSavedState) (lower : PluginSender → PluginSender → Bool)

/-- The sender that is found or created. There is none when `create_sender` fails, which
`send_router_message` does not notice. -/
def senderFor (s : State) (call : Call) : Option (Nat × State) :=
  match s.pluginSenders.find (senderCompare ⟨call.thread, 0⟩) with
  | some found => some (found.sndr, s)
  | none =>
    if call.connects then
      some (s.created.length, {
        s with
        pluginSenders := s.pluginSenders.add senderCompare lower ⟨call.thread, s.created.length⟩
        created := s.created ++ [call.thread] })
    else none

def sendPluginMessage (s : State) (call : Call) : Option State := do
  let pcl := {
    call.pcl with
    sender := some ss.id.text
    seq := { call.pcl.seq with major := ss.bootCount } }
  let (sndr, s) ← senderFor lower s call
  let message ← packParcel utf pcl
  some { s with sent := s.sent ++ [⟨call.thread, sndr, message⟩] }

def callMachine : Machine State Call where
  start s := s = ⟨.leaf, [], []⟩
  next := sendPluginMessage utf ss lower

end

/-! ## Each thread its own sender -/

/-- The calls are made by threads of this set. -/
def ByThreads (threads : Set UInt64) (_ : State) (call : Call) : Prop := call.thread ∈ threads

structure EachItsOwn (s : State) : Prop where
  own : ∀ m ∈ s.sent, s.created[m.sndr]? = some m.thread
  once : s.created.Nodup
  ordered : s.pluginSenders.inorder.Pairwise
    fun x y => senderCompare x y < 0 ∧ 0 < senderCompare y x

def handle (thread : UInt64) : Int := thread.toNat

theorem threadOrder_self (thread : UInt64) : threadOrder thread thread = 0 := by
  simp [threadOrder]

/-- What holds of any handles: the tree holds the senders that have been created. -/
structure Held (calls : List Call) (s : State) : Prop where
  held : ∀ x, x ∈ s.pluginSenders.inorder ↔ s.created[x.sndr]? = some x.thread
  callers : s.sent.map Sent.thread = calls.map Call.thread

section
variable {utf : Utf} {ss : YellaSavedState} {lower : PluginSender → PluginSender → Bool}
  {s t : State} {call : Call} {calls : List Call} {k : Nat}

theorem senderFor_cases (h : senderFor lower s call = some (k, t)) :
    (∃ found, s.pluginSenders.find (senderCompare ⟨call.thread, 0⟩) = some found ∧
      k = found.sndr ∧ t = s) ∨
    (s.pluginSenders.find (senderCompare ⟨call.thread, 0⟩) = none ∧ k = s.created.length ∧
      t = { s with
        pluginSenders := s.pluginSenders.add senderCompare lower ⟨call.thread, s.created.length⟩
        created := s.created ++ [call.thread] }) := by
  unfold senderFor at h
  split at h
  · rename_i found eq
    obtain ⟨rfl, rfl⟩ := Prod.mk.inj (Option.some.inj h)
    exact .inl ⟨found, eq, rfl, rfl⟩
  · rename_i eq
    split at h
    · obtain ⟨rfl, rfl⟩ := Prod.mk.inj (Option.some.inj h)
      exact .inr ⟨eq, rfl, rfl⟩
    · cases h

theorem sendPluginMessage_cases (h : sendPluginMessage utf ss lower s call = some t) :
    ∃ k u message, senderFor lower s call = some (k, u) ∧
      t = { u with sent := u.sent ++ [⟨call.thread, k, message⟩] } := by
  unfold sendPluginMessage at h
  obtain ⟨⟨k, u⟩, sender, h⟩ := Option.bind_eq_some_iff.mp h
  obtain ⟨message, -, h⟩ := Option.bind_eq_some_iff.mp h
  exact ⟨k, u, message, sender, (Option.some.inj h).symm⟩

/-- A sender that is added is the last of those created. -/
theorem held_add (held : ∀ x, x ∈ s.pluginSenders.inorder ↔ s.created[x.sndr]? = some x.thread)
    (x : PluginSender) :
    x ∈ (s.pluginSenders.add senderCompare lower ⟨call.thread, s.created.length⟩).inorder ↔
      (s.created ++ [call.thread])[x.sndr]? = some x.thread := by
  obtain ⟨thread, sndr⟩ := x
  rw [RbTree.mem_add, held, PluginSender.mk.injEq]
  dsimp only
  by_cases old : sndr < s.created.length
  · rw [List.getElem?_append_left old]
    simp [Nat.ne_of_lt old]
  · rw [List.getElem?_append_right (by omega), List.getElem?_eq_none (l := s.created) (by omega)]
    by_cases last : sndr = s.created.length
    · subst last
      simp [eq_comm]
    · have : [call.thread][sndr - s.created.length]? = none :=
        List.getElem?_eq_none (by rw [List.length_singleton]; omega)
      simp [last, this]

theorem held_step (h : Held calls s) (next : sendPluginMessage utf ss lower s call = some t) :
    Held (calls ++ [call]) t := by
  obtain ⟨k, u, message, sender, rfl⟩ := sendPluginMessage_cases next
  rcases senderFor_cases sender with ⟨found, -, rfl, rfl⟩ | ⟨-, rfl, rfl⟩
  · exact ⟨h.held, by simp [h.callers]⟩
  · exact ⟨held_add h.held, by simp [h.callers]⟩

theorem held_run {Allowed : State → Call → Prop}
    (run : (callMachine utf ss lower).Run Allowed calls s) : Held calls s := by
  apply run.history Held
  · rintro s rfl
    exact ⟨fun x => by simp, rfl⟩
  · intro calls s call t h _ next
    exact held_step h next

/-! ## Handles that are ordered -/

/-- What holds where the comparator orders the threads. -/
structure Owned (threads : Set UInt64) (s : State) : Prop where
  held : ∀ x, x ∈ s.pluginSenders.inorder ↔ s.created[x.sndr]? = some x.thread
  within : ∀ thread ∈ s.created, thread ∈ threads
  once : s.created.Nodup
  ordered : Ordered senderCompare s.pluginSenders.inorder
  own : ∀ m ∈ s.sent, s.created[m.sndr]? = some m.thread

variable {threads : Set UInt64}

theorem Owned.mem_created (h : Owned threads s) {x : PluginSender}
    (hx : x ∈ s.pluginSenders.inorder) : x.thread ∈ s.created :=
  List.mem_of_getElem? ((h.held x).mp hx)

/-- A thread has one node in the tree. -/
theorem injOn_thread (held : ∀ x, x ∈ s.pluginSenders.inorder ↔ s.created[x.sndr]? = some x.thread)
    (once : s.created.Nodup) :
    Set.InjOn (fun x => x.thread) {x | x ∈ s.pluginSenders.inorder} := by
  rintro ⟨thread, i⟩ hi ⟨other, j⟩ hj same
  obtain rfl : thread = other := same
  have hi := (held _).mp hi
  have hj := (held _).mp hj
  obtain ⟨inside, -⟩ := List.getElem?_eq_some_iff.mp hi
  have : i = j := (List.getElem?_inj inside once).mp (hi.trans hj.symm)
  rw [this]

theorem strictTotalOn_inorder (total : StrictTotalOn threadOrder threads)
    (held : ∀ x, x ∈ s.pluginSenders.inorder ↔ s.created[x.sndr]? = some x.thread)
    (within : ∀ thread ∈ s.created, thread ∈ threads) (once : s.created.Nodup) :
    StrictTotalOn senderCompare {x | x ∈ s.pluginSenders.inorder} := by
  apply total.comap (f := fun x : PluginSender => x.thread) ?_ (injOn_thread held once)
  intro x hx
  exact within _ (List.mem_of_getElem? ((held x).mp hx))

/-- The search for a thread gets to its sender, if there is one. -/
theorem Owned.not_created (h : Owned threads s) (total : StrictTotalOn threadOrder threads)
    (mem : call.thread ∈ threads)
    (missing : s.pluginSenders.find (senderCompare ⟨call.thread, 0⟩) = none) :
    call.thread ∉ s.created := by
  have behind : s.pluginSenders.inorder.Pairwise fun x y =>
      senderCompare ⟨call.thread, 0⟩ x ≤ 0 → senderCompare ⟨call.thread, 0⟩ y < 0 := by
    apply h.ordered.imp_of_mem
    intro x y hx hy less reached
    have hx := h.within _ (h.mem_created hx)
    have hy := h.within _ (h.mem_created hy)
    by_cases here : call.thread = x.thread
    · rw [senderCompare, here]
      exact less
    · have ne : x.thread ≠ y.thread := by
        intro same
        rw [senderCompare, same, threadOrder_self] at less
        omega
      have apart := total.apart _ mem _ hx here
      exact total.trans _ mem _ hx _ hy here ne (lt_of_le_of_ne reached apart) less
  intro again
  obtain ⟨i, hi⟩ := List.getElem?_of_mem again
  have here : ⟨call.thread, i⟩ ∈ s.pluginSenders.inorder := (h.held _).mpr hi
  exact RbTree.find_none behind missing _ here (threadOrder_self call.thread)

/-- A thread that has no sender yet gets one. -/
theorem owned_add (h : Owned threads s) (total : StrictTotalOn threadOrder threads)
    (mem : call.thread ∈ threads) (fresh : call.thread ∉ s.created) :
    Owned threads { s with
      pluginSenders := s.pluginSenders.add senderCompare lower ⟨call.thread, s.created.length⟩
      created := s.created ++ [call.thread] } := by
  have held : ∀ x,
      x ∈ (s.pluginSenders.add senderCompare lower ⟨call.thread, s.created.length⟩).inorder ↔
        (s.created ++ [call.thread])[x.sndr]? = some x.thread := held_add h.held
  have within : ∀ thread ∈ s.created ++ [call.thread], thread ∈ threads := by
    intro thread ht
    rcases List.mem_append.mp ht with ht | ht
    · exact h.within thread ht
    · rw [List.mem_singleton.mp ht]
      exact mem
  have once : (s.created ++ [call.thread]).Nodup := by
    apply List.Nodup.append h.once (List.nodup_singleton _)
    intro thread ht last
    exact fresh (List.mem_singleton.mp last ▸ ht)
  refine ⟨held, within, once, ?_, ?_⟩
  · have nodes := strictTotalOn_inorder (s := { s with
      pluginSenders := s.pluginSenders.add senderCompare lower ⟨call.thread, s.created.length⟩
      created := s.created ++ [call.thread] }) total held within once
    apply RbTree.ordered_add nodes (fun x _ => threadOrder_self x.thread) ?_ ?_ ?_ h.ordered
    · exact RbTree.mem_add.mpr (.inl rfl)
    · exact fun x hx => RbTree.mem_add.mpr (.inr hx)
    · exact fun again => fresh (h.mem_created again)
  · intro m hm
    have own := h.own m hm
    obtain ⟨inside, -⟩ := List.getElem?_eq_some_iff.mp own
    rw [List.getElem?_append_left inside]
    exact own

theorem owned_senderFor (h : Owned threads s) (total : StrictTotalOn threadOrder threads)
    (mem : call.thread ∈ threads) (sender : senderFor lower s call = some (k, t)) :
    Owned threads t ∧ t.created[k]? = some call.thread := by
  rcases senderFor_cases sender with ⟨found, eq, rfl, rfl⟩ | ⟨missing, rfl, rfl⟩
  · refine ⟨h, ?_⟩
    obtain ⟨here, zero⟩ := RbTree.find_some eq
    have : call.thread = found.thread := by
      by_contra ne
      exact total.apart _ mem _ (h.within _ (h.mem_created here)) ne zero
    rw [this]
    exact (h.held found).mp here
  · exact ⟨owned_add h total mem (h.not_created total mem missing), by simp⟩

theorem owned_run (total : StrictTotalOn threadOrder threads)
    (run : (callMachine utf ss lower).Run (ByThreads threads) calls s) : Owned threads s := by
  apply run.invariant (Owned threads)
  · rintro s rfl
    exact ⟨fun x => by simp, by simp, by simp, List.Pairwise.nil, by simp⟩
  · intro s call t h mem next
    obtain ⟨k, u, message, sender, rfl⟩ := sendPluginMessage_cases next
    obtain ⟨h, own⟩ := owned_senderFor h total mem sender
    refine ⟨h.held, h.within, h.once, h.ordered, ?_⟩
    intro m hm
    rcases List.mem_append.mp hm with hm | hm
    · exact h.own m hm
    · rw [List.mem_singleton.mp hm]
      exact own

theorem Owned.eachItsOwn (h : Owned threads s) (total : StrictTotalOn threadOrder threads) :
    EachItsOwn s := by
  refine ⟨h.own, h.once, ?_⟩
  have nodes := strictTotalOn_inorder total h.held h.within h.once
  apply h.ordered.imp_of_mem
  intro x y hx hy less
  have ne : x ≠ y := by
    rintro rfl
    rw [senderCompare, threadOrder_self] at less
    omega
  exact ⟨less, (nodes.antisymm x hx y hy ne).mp less⟩

end

/-! ## The accumulator's thread -/

/-- The senders when only one thread has called. -/
def ofThread (lower : PluginSender → PluginSender → Bool) (thread : UInt64)
    (sender : Yella.PluginSender) (sent : List Sent) : State :=
  if sender = .missing then ⟨.leaf, [], sent⟩
  else ⟨RbTree.leaf.add senderCompare lower ⟨thread, accumulatorSender⟩, [thread], sent⟩

theorem senderFor_ofThread (thread : UInt64) (pcl : YellaParcel) (sender : Yella.PluginSender)
    (sent : List Sent) :
    senderFor lower (ofThread lower thread sender sent) ⟨thread, pcl, true⟩ =
      some (accumulatorSender, ofThread lower thread .live sent) := by
  by_cases missing : sender = .missing
  · simp [senderFor, ofThread, missing, RbTree.find, accumulatorSender]
  · have found : (RbTree.leaf.add senderCompare lower ⟨thread, accumulatorSender⟩).find
        (senderCompare ⟨thread, 0⟩) = some ⟨thread, accumulatorSender⟩ := by
      simp [RbTree.add, RbTree.addRecursive, RbTree.paint, RbTree.find, senderCompare,
        threadOrder_self]
    simp [senderFor, ofThread, missing, found]

/-- A call in the whole agent is one with these senders: the thread of the accumulator, which is the
only one to call, finds or gets the first of them. -/
theorem sendPluginMessage_ofThread {w : Surroundings} {a b : Agent} {parcel : StatesParcel}
    {pcl : YellaParcel} {message : FbParcel} (thread : UInt64) (sent : List Sent)
    (lives : a.canSend = true) (next : Yella.sendPluginMessage w a parcel = some b)
    (packs : packParcel utf { pcl with
      sender := some ss.id.text
      seq := { pcl.seq with major := ss.bootCount } } = some message) :
    sendPluginMessage utf ss lower (ofThread lower thread a.sender sent) ⟨thread, pcl, true⟩ =
      some (ofThread lower thread b.sender (sent ++ [⟨thread, accumulatorSender, message⟩])) := by
  have live : b.sender = .live := by
    rw [Yella.sendPluginMessage, if_pos lives] at next
    obtain ⟨rtr, -, rfl⟩ := Option.map_eq_some_iff.mp next
    rfl
  simp only [sendPluginMessage, senderFor_ofThread, Option.bind_eq_bind, Option.bind_some]
  rw [packs, live]
  rfl

/-! ## Any handles -/

instance finiteHandles : Finite UInt64 :=
  Finite.of_injective UInt64.toFin fun _ _ => UInt64.toFin_inj.mp

/-- A call of each of these threads. -/
def callsOf (threads : List UInt64) : List Call :=
  threads.map fun thread => ⟨thread, shortParcel 0 none, true⟩

section
variable (utf : YellaUtf) (ss : YellaSavedState) (lower : PluginSender → PluginSender → Bool)

theorem exists_sendPluginMessage (s : State) (thread : UInt64) :
    ∃ t, sendPluginMessage utf ss lower s ⟨thread, shortParcel 0 none, true⟩ = some t := by
  obtain ⟨k, u, sender⟩ : ∃ k u,
      senderFor lower s ⟨thread, shortParcel 0 none, true⟩ = some (k, u) := by
    unfold senderFor
    split
    · exact ⟨_, _, rfl⟩
    · exact ⟨_, _, if_pos rfl⟩
  have time : UDate.toUInt64 0 = some (UInt64.ofNat 0) := by norm_num [UDate.toUInt64]
  have id := Utf.Converts.toUtf8_eq (utf.converts_iff.mpr ss.id.text_isAscii)
  have type := Utf.Converts.toUtf8_eq (utf.converts_iff.mpr (by decide : UStr.IsAscii [116]))
  have grp := Utf.Converts.toUtf8_eq (utf.converts_iff.mpr (by decide : UStr.IsAscii [103]))
  unfold sendPluginMessage
  rw [sender]
  simp [packParcel, packRecipient, packGroupIfPresent, packGroup, shortParcel, time, id, type, grp]

theorem exists_run {threads : Set UInt64} (l : List UInt64) (mem : ∀ thread ∈ l, thread ∈ threads) :
    ∃ s, (callMachine utf ss lower).Run (ByThreads threads) (callsOf l) s := by
  induction l using List.reverseRecOn with
  | nil => exact ⟨_, .start rfl⟩
  | append_singleton l thread ih =>
    obtain ⟨s, run⟩ := ih fun t ht => mem t (List.mem_append_left _ ht)
    obtain ⟨t, next⟩ := exists_sendPluginMessage utf ss lower s thread
    rw [callsOf, List.map_append]
    exact ⟨t, run.step (mem thread (by simp)) next⟩

/-- The comparator orders the threads that have called, if each has its own sender. -/
theorem strictTotalOn_of_eachItsOwn {threads : Set UInt64}
    (sound : ∀ calls s, (callMachine utf ss lower).Run (ByThreads threads) calls s →
      EachItsOwn s) : StrictTotalOn threadOrder threads := by
  have finite : threads.Finite := threads.toFinite
  have all (thread : UInt64) : thread ∈ finite.toFinset.toList ↔ thread ∈ threads := by simp
  obtain ⟨s, run⟩ := exists_run utf ss lower finite.toFinset.toList fun t ht => (all t).mp ht
  have h := held_run run
  have each := sound _ s run
  have nodes : ∀ thread ∈ threads, ∃ k, ⟨thread, k⟩ ∈ s.pluginSenders.inorder := by
    intro thread ht
    have called : thread ∈ s.sent.map Sent.thread := by
      rw [h.callers, callsOf, List.map_map]
      simpa [Function.comp_def] using ht
    obtain ⟨m, hm, rfl⟩ := List.mem_map.mp called
    exact ⟨m.sndr, (h.held _).mpr (each.own m hm)⟩
  choose! number there using nodes
  apply (StrictTotalOn.of_pairwise each.ordered).comap
    (f := fun thread => (⟨thread, number thread⟩ : PluginSender))
  · intro thread ht
    exact there thread ht
  · intro a _ b _ same
    exact congrArg PluginSender.thread same

/-- **Senders of the threads.** Each thread keeps its own sender in every run exactly if the low
words of the handles differ and are on one half of the circle of words. -/
theorem eachItsOwn_iff (threads : Set UInt64) :
    (∀ calls s, (callMachine utf ss lower).Run (ByThreads threads) calls s → EachItsOwn s) ↔
      OnHalf 0x80000000 handle threads ∧ WordsDiffer 0x80000000 handle threads := by
  have finite : threads.Finite := threads.toFinite
  rw [← strictTotalOn_wrap_iff (by decide) finite]
  constructor
  · intro sound
    exact strictTotalOn_of_eachItsOwn utf ss lower sound
  · intro total calls s run
    exact (owned_run total run).eachItsOwn total

end

/-- Handles of one low word: the second thread sends through the first one's socket. -/
theorem not_eachItsOwn_lowWord :
    ∃ s, (callMachine asciiUtf (resetSs (Vector.replicate 16 0) []) fun _ _ => false).Run
        (ByThreads {0x100000000, 0x200000000}) (callsOf [0x100000000, 0x200000000]) s ∧
      s.created = [0x100000000] ∧
      s.sent.map (fun m => (m.thread, m.sndr)) = [(0x100000000, 0), (0x200000000, 0)] ∧
      ¬ EachItsOwn s := by
  let ss := resetSs (Vector.replicate 16 0) []
  let lower (_ _ : PluginSender) : Bool := false
  obtain ⟨s, first⟩ := exists_sendPluginMessage asciiYellaUtf ss lower ⟨.leaf, [], []⟩ 0x100000000
  obtain ⟨t, second⟩ := exists_sendPluginMessage asciiYellaUtf ss lower s 0x200000000
  have run : (callMachine asciiUtf ss lower).Run (ByThreads {0x100000000, 0x200000000})
      (callsOf [0x100000000, 0x200000000]) t := by
    have start : (callMachine asciiUtf ss lower).Run (ByThreads {0x100000000, 0x200000000}) []
      ⟨.leaf, [], []⟩ := .start rfl
    exact (start.step (.inl rfl) first).step (.inr rfl) second
  have after : t.created = [0x100000000] ∧
      t.sent.map (fun m => (m.thread, m.sndr)) = [(0x100000000, 0), (0x200000000, 0)] := by
    obtain ⟨k, u, message, sender, rfl⟩ := sendPluginMessage_cases first
    obtain ⟨rfl, rfl⟩ := Prod.mk.inj (Option.some.inj sender)
    obtain ⟨k, u, message, sender, rfl⟩ := sendPluginMessage_cases second
    obtain ⟨rfl, rfl⟩ := Prod.mk.inj (Option.some.inj sender)
    exact ⟨rfl, rfl⟩
  refine ⟨t, run, after.1, after.2, ?_⟩
  intro each
  have mem : (0x200000000, 0) ∈ t.sent.map (fun m => (m.thread, m.sndr)) := by
    rw [after.2]
    simp
  obtain ⟨m, hm, same⟩ := List.mem_map.mp mem
  obtain ⟨thread, sndr⟩ := Prod.mk.inj same
  have own := each.own m hm
  rw [thread, sndr, after.1] at own
  exact absurd own (by decide)

end Yella.Senders
