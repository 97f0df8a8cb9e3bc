/-
Order and conservation of the messages of one process (`ipc.c`), for the destinations it alone sends to.

- `St.rest`: where the messages of the outbox that are still to be sent or cancelled begin. That is `first`, but for two
  moments: `ipc_send_retry_cb` has released its message and not yet moved `first` on, and
  `shuso_ipc_channel_local_stop` walks the list with a saved `next`.
- `Conserved s d`: the messages delivered at d are a prefix of those accepted for it, and the messages accepted for it
  are, each once, those delivered, in the ring, in the outbox or cancelled.
- `Ok`: nothing is sent while the cancel handler of the last message of the outbox runs, and once
  `shuso_ipc_channel_local_stop` is done, nothing is sent to a destination for which it has cancelled a message.

Results:
- `step_inv`: every step that meets `Ok` keeps `Inv`, the accepted messages in order: delivered, in the ring, cancelled,
  in the outbox.
- `conserved_of_ok`: every state reached by such steps.
- `message_lost`: without the condition. The `next` of the last message was read before its handler was called, so what
  the handler sends is appended behind a node that the loop does not look at again.
-/
import Mathlib.Tactic
import Shuttlesock.Core.Runs
import Shuttlesock.Core.Links
import Shuttlesock.Ipc.Outbox

namespace Shuttlesock.Outbox

open Shuttlesock.Ring Shuttlesock.Runs Shuttlesock.Links

variable {A D : Type*} [DecidableEq D]

/-! ## Where the messages are -/

/-- the message of a send in progress -/
def sendMsg : SendPc → Option Msg
  | .idle => none
  | .loadFull m | .reserve m | .loadRead m _ _ | .recheck m _ _ _ | .cas m _ _ | .storePtr m _ | .storeCode m _
  | .release m _ | .notice m => some m

/-- its message is released -/
def wasSent : SendPc → Bool
  | .notice _ => true
  | _ => false

def St.link (s : St A D) (a : A) : Option A := (s.mem a).next

/-- where the messages that are still to be sent or cancelled begin -/
def St.rest (s : St A D) : Option A :=
  match s.ctl with
  | .run (some (_, next)) => next
  | .sending (some (_, next)) _ _ _ => next
  | .retrying cur pc => if wasSent pc then (s.mem cur).next else s.first
  | _ => s.first

/-- the messages for d in a list of nodes -/
def buffered (mem : A → Outbuf A D) (l : List A) (d : D) : List Msg :=
  (l.filter fun a => (mem a).dst = d).map fun a => (mem a).msg

structure Conserved (s : St A D) (d : D) : Prop where
  fifo : s.delivered d <+: s.accepted d
  once : ∃ l, Follows s.link s.rest l ∧
    (s.accepted d).Perm (s.delivered d ++ inRing (s.buf d) (s.recv d) ++ buffered s.mem l d ++ s.cancelled d)

variable (only : D → Prop)

/-- the condition on a step -/
def Ok (s : St A D) : Action A D → Prop
  | .send d _ _ _ => only d → (∀ cur, s.ctl ≠ .run (some (cur, none))) ∧ (s.ctl = .run none → s.cancelled d = [])
  | _ => True

/-! ## The nodes of the outbox -/

@[simp] theorem buffered_nil (mem : A → Outbuf A D) (d : D) : buffered mem [] d = [] := rfl

theorem buffered_cons (mem : A → Outbuf A D) (a : A) (l : List A) (d : D) :
    buffered mem (a :: l) d = (if (mem a).dst = d then [(mem a).msg] else []) ++ buffered mem l d := by
  unfold buffered
  rw [List.filter_cons]
  split_ifs with h1 h2 h2
  · rfl
  · exact absurd (of_decide_eq_true h1) h2
  · exact absurd (decide_eq_true h2) h1
  · rfl

theorem buffered_append (mem : A → Outbuf A D) (l l' : List A) (d : D) :
    buffered mem (l ++ l') d = buffered mem l d ++ buffered mem l' d := by
  rw [buffered, List.filter_append, List.map_append]
  rfl

theorem buffered_congr {mem mem' : A → Outbuf A D} {l : List A} (d : D)
    (h : ∀ a ∈ l, (mem' a).dst = (mem a).dst ∧ (mem' a).msg = (mem a).msg) :
    buffered mem' l d = buffered mem l d := by
  induction l with
  | nil => rfl
  | cons a l ih =>
    obtain ⟨h1, h2⟩ := h a List.mem_cons_self
    rw [buffered_cons, buffered_cons, h1, h2, ih fun x hx => h x (List.mem_cons_of_mem a hx)]

theorem push_self (f : D → List Msg) (d : D) (l : List Msg) : push f d l d = f d ++ l := Function.update_self _ _ _

theorem push_of_ne (f : D → List Msg) {d d' : D} (h : d' ≠ d) (l : List Msg) : push f d l d' = f d' :=
  Function.update_of_ne h _ _

/-! ## The invariant -/

/-- the place of the process in a send to d -/
def St.pcAt (s : St A D) (d : D) : SendPc :=
  match s.ctl with
  | .run _ => .idle
  | .sending _ d' _ pc => if d' = d then pc else .idle
  | .retrying cur pc => if (s.mem cur).dst = d then pc else .idle

/-- what holds of `first` and `last` when the nodes to be sent or cancelled are l -/
def CtlOk (s : St A D) (l : List A) : Prop :=
  match s.ctl with
  | .run none => s.last = l.getLast?
  | .run (some (cur, _)) => s.first ≠ none ∧ cur ∈ s.live ∧ cur ∉ l ∧ (l ≠ [] → s.last = l.getLast?)
  | .sending none d _ _ => s.first = none ∧ s.last = none ∧ (only d → s.cancelled d = [])
  | .sending (some _) _ _ _ => False
  | .retrying cur pc =>
    s.first = some cur ∧ cur ∈ s.live ∧ (∀ m ∈ sendMsg pc, m = (s.mem cur).msg) ∧
      if wasSent pc then cur ∉ l ∧ s.last = (cur :: l).getLast? else s.last = l.getLast?

/-- the accepted messages in order -/
def Fifo (s : St A D) (l : List A) (d : D) : Prop :=
  s.accepted d = s.delivered d ++ inRing (s.buf d) (s.recv d) ++ s.cancelled d ++ buffered s.mem l d

structure Inv (s : St A D) (l : List A) : Prop where
  chain : Follows s.link s.rest l
  live : ∀ a ∈ l, a ∈ s.live
  ctl : CtlOk only s l
  ring : ∀ d, only d → Solo (s.buf d) (s.pcAt d) (s.recv d)
  fifo : ∀ d, only d → Fifo s l d
  /-- outside `shuso_ipc_channel_local_stop`, nothing is left for a destination with a cancelled message -/
  done : (∀ x, s.ctl ≠ .run (some x)) → ∀ d, only d → s.cancelled d ≠ [] → ∀ a ∈ l, (s.mem a).dst ≠ d

theorem Inv.conserved {s : St A D} {l : List A} (h : Inv only s l) {d : D} (hd : only d) : Conserved s d := by
  have hf : s.accepted d = _ := h.fifo d hd
  refine ⟨?_, l, h.chain, ?_⟩
  · rw [hf, List.append_assoc, List.append_assoc]
    exact List.prefix_append _ _
  · rw [hf, List.append_assoc, List.append_assoc (_ ++ _)]
    exact List.Perm.append_left _ List.perm_append_comm

theorem init_inv (mem : A → Outbuf A D) : Inv only (init mem) [] where
  chain := rfl
  live := by
    intro a ha
    cases ha
  ctl := rfl
  ring := fun _ _ => Solo.new
  fifo := fun _ _ => rfl
  done := by
    intro _ d _ hc
    exact absurd rfl hc

theorem pcAt_run {s : St A D} {x : Option (A × Option A)} (hctl : s.ctl = .run x) (d : D) : s.pcAt d = .idle := by
  rw [St.pcAt, hctl]

/-! ## The receivers and the other senders -/

theorem wake_inv {s : St A D} {l : List A} (h : Inv only s l) {d : D} (hd : s.recv d = .idle) :
    Inv only { s with recv := Function.update s.recv d .loadNextRead } l where
  chain := h.chain
  live := h.live
  ctl := h.ctl
  ring := by
    intro d' hd'
    have hs := h.ring d' hd'
    by_cases hdd : d' = d
    · subst hdd
      rw [hd] at hs
      change Solo (s.buf d') (s.pcAt d') (Function.update s.recv d' .loadNextRead d')
      rw [Function.update_self]
      exact ⟨hs.unread, hs.window, hs.reserve, hs.send, trivial⟩
    · change Solo (s.buf d') (s.pcAt d') (Function.update s.recv d .loadNextRead d')
      rw [Function.update_of_ne hdd]
      exact hs
  fifo := by
    intro d' hd'
    have hs : s.accepted d' = _ := h.fifo d' hd'
    by_cases hdd : d' = d
    · subst hdd
      rw [hd] at hs
      simp only [Fifo, Function.update_self]
      exact hs
    · simp only [Fifo, Function.update_of_ne hdd]
      exact hs
  done := h.done

theorem recv_inv {s : St A D} {l : List A} (h : Inv only s l) (d : D) : Inv only (runRecv s d) l where
  chain := h.chain
  live := h.live
  ctl := h.ctl
  ring := by
    intro d' hd'
    have hs := h.ring d' hd'
    by_cases hdd : d' = d
    · subst hdd
      have hr := recv_solo hs
      simp only [runRecv, Function.update_self]
      exact hr
    · simp only [runRecv, Function.update_of_ne hdd]
      exact hs
  fifo := by
    intro d' hd'
    have hs : s.accepted d' = _ := h.fifo d' hd'
    by_cases hdd : d' = d
    · subst hdd
      rw [recv_inRing (h.ring d' hd'), ← List.append_assoc (s.delivered d')] at hs
      simp only [runRecv, Fifo, Function.update_self, push_self]
      exact hs
    · simp only [runRecv, Fifo, Function.update_of_ne hdd, push_of_ne _ hdd]
      exact hs
  done := h.done

theorem other_inv {s : St A D} {l : List A} (h : Inv only s l) {d : D} (hd : ¬ only d) (b : Ringbuf) :
    Inv only { s with buf := Function.update s.buf d b } l where
  chain := h.chain
  live := h.live
  ctl := h.ctl
  ring := by
    intro d' hd'
    have hdd : d' ≠ d := fun he => hd (he ▸ hd')
    simp only [Function.update_of_ne hdd]
    exact h.ring d' hd'
  fifo := by
    intro d' hd'
    have hdd : d' ≠ d := fun he => hd (he ▸ hd')
    simp only [Fifo, Function.update_of_ne hdd]
    exact h.fifo d' hd'
  done := h.done

/-! ## The atomic steps of `ipc_send_direct` -/

theorem send_idle {pc : SendPc} {b : Ringbuf} (h : (send_step pc b).2.2 ≠ none) : (send_step pc b).1 = .idle := by
  cases pc with
  | idle => rfl
  | notice m => rfl
  | cas m next e => rfl
  | loadFull m =>
    simp only [send_step] at h ⊢
    split_ifs at h ⊢
    · rfl
    · exact absurd rfl h
  | recheck m next e next_read =>
    simp only [send_step] at h ⊢
    split_ifs at h ⊢
    · rfl
    · exact absurd rfl h
    · exact absurd rfl h
  | _ => exact absurd rfl h

/-- the message stays the same -/
theorem send_msg {pc : SendPc} {b : Ringbuf} {m : Msg} (h : m ∈ sendMsg (send_step pc b).1) : m ∈ sendMsg pc := by
  cases pc with
  | loadFull m =>
    simp only [send_step] at h
    split_ifs at h
    · cases h
    · exact h
  | recheck m next e next_read =>
    simp only [send_step] at h
    split_ifs at h
    · cases h
    · exact h
    · exact h
  | cas m next e => cases h
  | notice m => cases h
  | _ => exact h

/-- the message is on its way from the release on -/
theorem send_wasSent (pc : SendPc) (b : Ringbuf) : wasSent (send_step pc b).1 = (released pc).isSome := by
  cases pc with
  | loadFull m => simp only [send_step]; split_ifs <;> rfl
  | recheck m next e next_read => simp only [send_step]; split_ifs <;> rfl
  | _ => rfl

theorem released_mem {pc : SendPc} {m : Msg} (h : released pc = some m) : m ∈ sendMsg pc ∧ wasSent pc = false := by
  cases pc with
  | release m' i => exact ⟨h, rfl⟩
  | _ => cases h

theorem send_returns {pc : SendPc} {b : Ringbuf} :
    (send_step pc b).2.2 = some true ↔ wasSent pc = true := by
  cases pc with
  | loadFull m => simp only [send_step]; split_ifs <;> simp [wasSent]
  | recheck m next e next_read => simp only [send_step]; split_ifs <;> simp [wasSent]
  | _ => simp [send_step, wasSent]

theorem sent_buf {pc : SendPc} (b : Ringbuf) (h : wasSent pc = true) : (send_step pc b).2.1 = b := by
  cases pc with
  | notice m => rfl
  | _ => cases h

/-- the rings after a step of the send to d -/
theorem rings_step {s : St A D} {d : D} {pc : SendPc}
    (h : ∀ d', only d' → Solo (s.buf d') (if d = d' then pc else .idle) (s.recv d')) {d' : D} (hd' : only d') :
    Solo (Function.update s.buf d (send_step pc (s.buf d)).2.1 d')
        (if d = d' then (send_step pc (s.buf d)).1 else .idle) (s.recv d') ∧
      inRing (Function.update s.buf d (send_step pc (s.buf d)).2.1 d') (s.recv d') =
        inRing (s.buf d') (s.recv d') ++ if d = d' then (released pc).toList else [] := by
  have hs := h d' hd'
  by_cases hdd : d = d'
  · subst hdd
    rw [if_pos rfl] at hs
    rw [if_pos rfl, if_pos rfl, Function.update_self]
    exact ⟨send_solo hs, send_inRing hs⟩
  · rw [if_neg hdd] at hs
    rw [if_neg hdd, if_neg hdd, Function.update_of_ne (Ne.symm hdd), List.append_nil]
    exact ⟨hs, rfl⟩

theorem returned_solo {b : Ringbuf} {pc : SendPc} {r : RecvPc} (h : Solo b pc r) (hpc : wasSent pc = true) :
    Solo b .idle r := by
  cases pc with
  | notice m => exact ⟨h.unread, h.window, h.reserve, trivial, h.recv⟩
  | _ => cases hpc

/-- a step of a call of `shuso_ipc_send` -/
theorem sending_inv {s : St A D} {l : List A} (h : Inv only s l) {d : D} {m : Msg} {pc : SendPc}
    (hctl : s.ctl = .sending none d m pc) :
    Inv only { s with
      buf := Function.update s.buf d (send_step pc (s.buf d)).2.1
      accepted := push s.accepted d (released pc).toList
      ctl := .sending none d m (send_step pc (s.buf d)).1 } l := by
  obtain ⟨hfirst, hlast, hc⟩ : s.first = none ∧ s.last = none ∧ (only d → s.cancelled d = []) := by
    have := h.ctl
    rwa [CtlOk, hctl] at this
  have hl : l = [] := by
    have hchain := h.chain
    rw [St.rest, hctl] at hchain
    exact (hchain.of_none hfirst)
  subst hl
  have hring : ∀ d', only d' → Solo (s.buf d') (if d = d' then pc else .idle) (s.recv d') := by
    intro d' hd'
    have hs := h.ring d' hd'
    rwa [St.pcAt, hctl] at hs
  refine ⟨hfirst, h.live, ⟨hfirst, hlast, hc⟩, ?_, ?_, ?_⟩
  · intro d' hd'
    exact (rings_step only hring hd').1
  · intro d' hd'
    have hf : s.accepted d' = _ := h.fifo d' hd'
    simp only [Fifo, (rings_step only hring hd').2]
    by_cases hdd : d = d'
    · subst hdd
      rw [push_self, if_pos rfl, hf, hc hd']
      simp only [buffered_nil, List.append_nil, List.append_assoc]
    · rw [push_of_ne _ (Ne.symm hdd), if_neg hdd, hf, List.append_nil]
  · intro _ d' _ _ a ha
    cases ha

/-- a step of a call of `ipc_send_retry_cb`; at its release the message leaves the outbox -/
theorem retrying_inv {s : St A D} {l : List A} (h : Inv only s l) {cur : A} {pc : SendPc}
    (hctl : s.ctl = .retrying cur pc) (hpc : wasSent pc = false) :
    ∃ l', Inv only { s with
      buf := Function.update s.buf (s.mem cur).dst (send_step pc (s.buf (s.mem cur).dst)).2.1
      ctl := .retrying cur (send_step pc (s.buf (s.mem cur).dst)).1 } l' := by
  obtain ⟨hfirst, hcur, hmsg, hlast⟩ : s.first = some cur ∧ cur ∈ s.live ∧
      (∀ m ∈ sendMsg pc, m = (s.mem cur).msg) ∧ s.last = l.getLast? := by
    have := h.ctl
    rw [CtlOk, hctl] at this
    simpa only [hpc, Bool.false_eq_true, if_false] using this
  have hchain : Follows s.link (some cur) l := by
    have := h.chain
    rw [St.rest, hctl] at this
    simpa only [hpc, Bool.false_eq_true, if_false, hfirst] using this
  obtain ⟨k, rfl⟩ := hchain.of_some
  have hnd := List.nodup_cons.1 hchain.nodup
  have hdone : ∀ d, only d → s.cancelled d ≠ [] → ∀ a ∈ cur :: k, (s.mem a).dst ≠ d := by
    apply h.done
    rw [hctl]
    exact fun y hy => by cases hy
  have hmsg' : ∀ m ∈ sendMsg (send_step pc (s.buf (s.mem cur).dst)).1, m = (s.mem cur).msg :=
    fun m hm => hmsg m (send_msg hm)
  have hring : ∀ d', only d' → Solo (s.buf d') (if (s.mem cur).dst = d' then pc else .idle) (s.recv d') := by
    intro d' hd'
    have hs := h.ring d' hd'
    rwa [St.pcAt, hctl] at hs
  have hsent := send_wasSent pc (s.buf (s.mem cur).dst)
  cases hrel : released pc with
  | none =>
    rw [hrel] at hsent
    refine ⟨cur :: k, ?_, h.live, ⟨hfirst, hcur, hmsg', ?_⟩, ?_, ?_, fun _ => hdone⟩
    · simp only [St.rest, hsent, Option.isSome_none, Bool.false_eq_true, if_false, hfirst]
      exact hchain
    · simp only [hsent, Option.isSome_none, Bool.false_eq_true, if_false]
      exact hlast
    · intro d' hd'
      exact (rings_step only hring hd').1
    · intro d' hd'
      have hf : s.accepted d' = _ := h.fifo d' hd'
      simp only [Fifo, (rings_step only hring hd').2, hrel, Option.toList_none, ite_self, List.append_nil]
      exact hf
  | some m =>
    rw [hrel] at hsent
    have hm : m = (s.mem cur).msg := hmsg m (released_mem hrel).1
    refine ⟨k, ?_, fun a ha => h.live a (List.mem_cons_of_mem cur ha), ⟨hfirst, hcur, hmsg', ?_⟩, ?_, ?_, ?_⟩
    · simp only [St.rest, hsent, Option.isSome_some, if_true]
      exact hchain.2
    · simp only [hsent, Option.isSome_some, if_true]
      exact ⟨hnd.1, hlast⟩
    · intro d' hd'
      exact (rings_step only hring hd').1
    · intro d' hd'
      have hf : s.accepted d' = _ := h.fifo d' hd'
      rw [buffered_cons] at hf
      simp only [Fifo, (rings_step only hring hd').2, hrel, Option.toList_some]
      by_cases hdd : (s.mem cur).dst = d'
      · have hc : s.cancelled d' = [] := by
          by_contra hc
          exact hdone d' hd' hc cur List.mem_cons_self hdd
        rw [if_pos hdd] at hf ⊢
        rw [hf, hc, hm]
        simp only [List.append_nil, List.append_assoc]
      · rw [if_neg hdd] at hf ⊢
        rw [hf, List.append_nil, List.nil_append]
    · intro _ d' hd' hc a ha
      exact hdone d' hd' hc a (List.mem_cons_of_mem cur ha)

/-! ## The loops over the outbox -/

theorem call_solo {b : Ringbuf} {r : RecvPc} (h : Solo b .idle r) (m : Msg) : Solo b (.loadFull m) r :=
  ⟨h.unread, h.window, h.reserve, trivial, h.recv⟩

/-- at the head of a loop that goes on with the nodes l from o on -/
structure AtHead (s : St A D) (o : Option A) (l : List A) : Prop where
  chain : Follows s.link o l
  live : ∀ a ∈ l, a ∈ s.live
  last : l ≠ [] → s.last = l.getLast?
  ring : ∀ d, only d → Solo (s.buf d) .idle (s.recv d)
  fifo : ∀ d, only d → Fifo s l d

theorem Inv.ring_idle {s : St A D} {l : List A} (h : Inv only s l) (hpc : ∀ d, s.pcAt d = .idle) :
    ∀ d, only d → Solo (s.buf d) .idle (s.recv d) := by
  intro d hd
  have hs := h.ring d hd
  rwa [hpc d] at hs

theorem Inv.atHead {s : St A D} {l : List A} (h : Inv only s l) (hctl : s.ctl = .run none) :
    AtHead only s s.first l where
  chain := by
    have := h.chain
    rwa [St.rest, hctl] at this
  live := h.live
  last := by
    intro _
    have := h.ctl
    rwa [CtlOk, hctl] at this
  ring := h.ring_idle only (pcAt_run hctl)
  fifo := h.fifo

theorem retry_loop_inv {s : St A D} {l : List A} (h : AtHead only s s.first l)
    (hdone : ∀ d, only d → s.cancelled d ≠ [] → ∀ a ∈ l, (s.mem a).dst ≠ d) : Inv only (retry_loop s) l := by
  cases hf : s.first with
  | none =>
    have he : retry_loop s = { s with last := none, ctl := .run none } := by simp only [retry_loop, hf]
    rw [he]
    have hl : l = [] := h.chain.of_none hf
    subst hl
    exact ⟨hf, h.live, rfl, h.ring, h.fifo, fun _ => hdone⟩
  | some cur =>
    have he : retry_loop s = { s with ctl := .retrying cur (.loadFull (s.mem cur).msg) } := by
      simp only [retry_loop, hf]
    rw [he]
    have hcur : cur ∈ l := by
      have hhead := h.chain.start
      rw [hf] at hhead
      exact List.mem_of_mem_head? hhead.symm
    refine ⟨h.chain, h.live, ⟨hf, h.live cur hcur, ?_, h.last (List.ne_nil_of_mem hcur)⟩, ?_, h.fifo, fun _ => hdone⟩
    · intro m hm
      exact (Option.some.inj hm).symm
    · intro d hd
      have hs := h.ring d hd
      simp only [St.pcAt]
      split_ifs
      · exact call_solo hs _
      · exact hs

theorem stop_loop_inv {s : St A D} {o : Option A} {l : List A} (h : AtHead only s o l)
    (hfirst : o ≠ none → s.first ≠ none) : ∃ l', Inv only (stop_loop s o) l' := by
  cases o with
  | none =>
    have hl : l = [] := h.chain.of_none rfl
    subst hl
    refine ⟨[], rfl, h.live, rfl, h.ring, h.fifo, ?_⟩
    intro _ d _ _ a ha
    cases ha
  | some cur =>
    obtain ⟨k, rfl⟩ := h.chain.of_some
    have hcur : cur ∈ s.live := h.live cur List.mem_cons_self
    have hnd := List.nodup_cons.1 h.chain.nodup
    refine ⟨k, h.chain.2, fun a ha => h.live a (List.mem_cons_of_mem cur ha), ?_, h.ring, ?_, ?_⟩
    · refine ⟨hfirst (Option.some_ne_none cur), hcur, hnd.1, ?_⟩
      intro hk
      change s.last = k.getLast?
      rw [h.last (List.cons_ne_nil cur k), List.getLast?_cons_of_ne_nil hk]
    · intro d hd
      have hf : s.accepted d = _ := h.fifo d hd
      rw [buffered_cons] at hf
      change s.accepted d = s.delivered d ++ inRing (s.buf d) (s.recv d) ++
        push s.cancelled (s.mem cur).dst [(s.mem cur).msg] d ++ buffered s.mem k d
      by_cases hdd : (s.mem cur).dst = d
      · rw [if_pos hdd] at hf
        rw [← hdd, push_self, hdd, hf]
        simp only [List.append_assoc]
      · rw [if_neg hdd] at hf
        rw [push_of_ne _ (Ne.symm hdd), hf, List.nil_append]
    · intro hstop
      exact absurd rfl (hstop _)

theorem return_inv {s : St A D} {l : List A} (h : Inv only s l) {d : D} {m : Msg}
    (hctl : s.ctl = .sending none d m .idle) : Inv only { s with ctl := .run none } l := by
  obtain ⟨hfirst, hlast, -⟩ : s.first = none ∧ s.last = none ∧ (only d → s.cancelled d = []) := by
    have := h.ctl
    rwa [CtlOk, hctl] at this
  have hchain : Follows s.link s.first l := by
    have := h.chain
    rwa [St.rest, hctl] at this
  have hl : l = [] := hchain.of_none hfirst
  subst hl
  refine ⟨hchain, h.live, hlast, h.ring_idle only ?_, h.fifo, ?_⟩
  · intro d'
    simp only [St.pcAt, hctl, ite_self]
  · intro _ d' _ _ a ha
    cases ha

/-- the ring of cur is full or busy -/
theorem refused_inv {s : St A D} {l : List A} (h : Inv only s l) {cur : A} (hctl : s.ctl = .retrying cur .idle) :
    Inv only { s with send_retry := true, ctl := .run none } l := by
  obtain ⟨-, -, -, hlast⟩ : s.first = some cur ∧ cur ∈ s.live ∧ (∀ m ∈ sendMsg .idle, m = (s.mem cur).msg) ∧
      s.last = l.getLast? := by
    have := h.ctl
    rwa [CtlOk, hctl] at this
  have hchain : Follows s.link s.first l := by
    have := h.chain
    rwa [St.rest, hctl] at this
  refine ⟨hchain, h.live, hlast, h.ring_idle only ?_, h.fifo, ?_⟩
  · intro d'
    simp only [St.pcAt, hctl, ite_self]
  · intro _
    apply h.done
    rw [hctl]
    exact fun y hy => by cases hy

/-! ## The append -/

variable [DecidableEq A]

/-- the append leaves the content of the other nodes as it is -/
theorem append_mem {s : St A D} {d : D} {m : Msg} {x a : A} (ha : a ≠ x) :
    ((ipc_send_outbuf_append s d m x).mem a).dst = (s.mem a).dst ∧
      ((ipc_send_outbuf_append s d m x).mem a).msg = (s.mem a).msg := by
  unfold ipc_send_outbuf_append
  cases s.last with
  | none => simp only [Function.update_of_ne ha, and_self]
  | some t =>
    by_cases hat : a = t
    · subst hat
      simp only [Function.update_self, Function.update_of_ne ha, true_and]
      rfl
    · simp only [Function.update_of_ne hat, Function.update_of_ne ha, and_self]

theorem append_new {s : St A D} {d : D} {m : Msg} {x : A} (hx : s.last ≠ some x) :
    (ipc_send_outbuf_append s d m x).mem x = ⟨m.code, m.ptr, d, none⟩ := by
  unfold ipc_send_outbuf_append
  cases hl : s.last with
  | none => exact Function.update_self _ _ _
  | some t =>
    have hne : x ≠ t := by
      rintro rfl
      exact hx hl
    simp only [Function.update_of_ne hne, Function.update_self]

/-- the new node comes after the last one -/
theorem append_follows {s : St A D} {o : Option A} {l : List A} (d : D) (m : Msg) {x : A} (h : Follows s.link o l)
    (hlast : s.last = l.getLast?) (hx : x ∉ l) :
    Follows (ipc_send_outbuf_append s d m x).link (o.or (some x)) (l ++ [x]) := by
  rcases List.eq_nil_or_concat l with rfl | ⟨k, t, rfl⟩
  · rw [follows_nil] at h
    subst h
    have hnew : (ipc_send_outbuf_append s d m x).mem x = ⟨m.code, m.ptr, d, none⟩ :=
      append_new (by rw [hlast]; exact fun h => by cases h)
    exact ⟨rfl, congrArg Outbuf.next hnew⟩
  · rw [List.concat_eq_append] at *
    have ho : o.or (some x) = o := by
      rw [h.start]
      cases k <;> rfl
    have htx : t ≠ x := by
      rintro rfl
      exact hx (by simp)
    have hlink : (ipc_send_outbuf_append s d m x).link =
        Function.update (Function.update s.link t (some x)) x none := by
      have hl : s.last = some t := by rw [hlast]; simp
      funext a
      by_cases hax : a = x
      · subst hax
        have hnew := append_new (s := s) (d := d) (m := m) (x := a) (by rw [hl]; simpa using htx)
        rw [Function.update_self]
        exact congrArg Outbuf.next hnew
      · rw [Function.update_of_ne hax]
        by_cases hat : a = t
        · subst hat
          simp [St.link, ipc_send_outbuf_append, hl]
        · simp [St.link, ipc_send_outbuf_append, hl, Function.update_of_ne hat, Function.update_of_ne hax]
    rw [ho, hlink, List.append_assoc]
    exact h.snoc hx

/-- the new message comes after the others -/
theorem append_buffered {s : St A D} {l : List A} {d : D} {m : Msg} {x : A} (hlast : s.last ≠ some x) (hx : x ∉ l)
    (d' : D) : buffered (ipc_send_outbuf_append s d m x).mem (l ++ [x]) d' =
      buffered s.mem l d' ++ if d = d' then [m] else [] := by
  have hold : buffered (ipc_send_outbuf_append s d m x).mem l d' = buffered s.mem l d' := by
    apply buffered_congr
    intro a ha
    apply append_mem
    rintro rfl
    exact hx ha
  rw [buffered_append, hold, buffered_cons, append_new hlast, buffered_nil, List.append_nil]
  rfl

/-- the accepted messages after an append to a list that goes on to the end of the outbox -/
theorem append_fifo {s : St A D} {l : List A} {d d' : D} {m : Msg} {x : A} (h : Fifo s l d') (hlast : s.last ≠ some x)
    (hx : x ∉ l) : Fifo (ipc_send_outbuf_append s d m x) (l ++ [x]) d' := by
  have hs : s.accepted d' = _ := h
  unfold Fifo
  rw [append_buffered hlast hx]
  change push s.accepted d [m] d' = s.delivered d' ++ inRing (s.buf d') (s.recv d') ++ s.cancelled d' ++ _
  by_cases hdd : d' = d
  · subst hdd
    rw [push_self, if_pos rfl, hs, List.append_assoc]
  · rw [push_of_ne _ hdd, if_neg (Ne.symm hdd), hs, List.append_nil]

theorem live_append {live : Finset A} {l : List A} (h : ∀ a ∈ l, a ∈ live) (x : A) : ∀ a ∈ l ++ [x], a ∈ insert x live := by
  intro a ha
  rcases List.mem_append.1 ha with ha | ha
  · exact Finset.mem_insert_of_mem (h a ha)
  · rw [List.mem_singleton.1 ha]
    exact Finset.mem_insert_self x live

/-- a call outside `shuso_ipc_channel_local_stop` -/
theorem append_inv {s : St A D} {l : List A} (h : Inv only s l) (hctl : s.ctl = .run none) {d : D} (m : Msg) {x : A}
    (hx : x ∉ s.live) (hc : only d → s.cancelled d = []) :
    Inv only (ipc_send_outbuf_append s d m x) (l ++ [x]) := by
  have hlast : s.last = l.getLast? := by
    have := h.ctl
    rwa [CtlOk, hctl] at this
  have hxl : x ∉ l := fun hm => hx (h.live x hm)
  have hne : s.last ≠ some x := by
    rw [hlast]
    exact fun he => hxl (List.mem_of_getLast? he)
  have hchain := h.chain
  have hrest : s.rest = s.first := by rw [St.rest, hctl]
  refine ⟨?_, ?_, ?_, ?_, ?_, ?_⟩
  · have hrest' : (ipc_send_outbuf_append s d m x).rest = s.rest.or (some x) := by
      rw [hrest, St.rest]
      simp only [ipc_send_outbuf_append, hctl]
    rw [hrest']
    exact append_follows d m hchain hlast hxl
  · exact live_append h.live x
  · have hctl' : (ipc_send_outbuf_append s d m x).ctl = .run none := hctl
    rw [CtlOk, hctl', List.getLast?_concat]
    rfl
  · intro d' hd'
    have hs := h.ring d' hd'
    rw [pcAt_run hctl] at hs
    rw [pcAt_run (s := ipc_send_outbuf_append s d m x) hctl]
    exact hs
  · intro d' hd'
    exact append_fifo (h.fifo d' hd') hne hxl
  · intro _ d' hd' hcan a ha
    rcases List.mem_append.1 ha with ha | ha
    · have hax : a ≠ x := fun he => hxl (Eq.subst (motive := (· ∈ l)) he ha)
      rw [(append_mem hax).1]
      refine h.done ?_ d' hd' hcan a ha
      rw [hctl]
      exact fun y hy => by cases hy
    · rw [List.mem_singleton.1 ha, append_new hne]
      rintro rfl
      exact hcan (hc hd')

/-- a call from the cancel handler of cur -/
theorem append_inv_stop {s : St A D} {l : List A} (h : Inv only s l) {cur : A} {next : Option A}
    (hctl : s.ctl = .run (some (cur, next))) {d : D} (m : Msg) {x : A} (hx : x ∉ s.live)
    (hnext : only d → next ≠ none) : ∃ l', Inv only (ipc_send_outbuf_append s d m x) l' := by
  obtain ⟨hfirst, hcur, hcurl, hlast⟩ : s.first ≠ none ∧ cur ∈ s.live ∧ cur ∉ l ∧ (l ≠ [] → s.last = l.getLast?) := by
    have := h.ctl
    rwa [CtlOk, hctl] at this
  have hchain : Follows s.link next l := by
    have := h.chain
    rwa [St.rest, hctl] at this
  have hctl' : (ipc_send_outbuf_append s d m x).ctl = .run (some (cur, next)) := hctl
  have hring : ∀ d', only d' → Solo (s.buf d') ((ipc_send_outbuf_append s d m x).pcAt d') (s.recv d') := by
    intro d' hd'
    have hs := h.ring d' hd'
    rw [pcAt_run hctl] at hs
    rw [pcAt_run hctl']
    exact hs
  have hfirst' : (ipc_send_outbuf_append s d m x).first ≠ none := by
    change s.first.or (some x) ≠ none
    cases hf : s.first with
    | none => exact absurd hf hfirst
    | some f => exact fun h => by cases h
  have hxcur : cur ≠ x := by
    rintro rfl
    exact hx hcur
  by_cases hl : l = []
  · -- the loop will not come back to the new node
    subst hl
    rw [follows_nil] at hchain
    have hd : ¬ only d := fun hd => hnext hd hchain
    refine ⟨[], ?_, ?_, ?_, hring, ?_, ?_⟩
    · rw [St.rest, hctl', hchain]
      exact rfl
    · intro a ha
      cases ha
    · rw [CtlOk, hctl']
      exact ⟨hfirst', Finset.mem_insert_of_mem hcur, List.not_mem_nil, fun h => absurd rfl h⟩
    · intro d' hd'
      have hs : s.accepted d' = _ := h.fifo d' hd'
      have hdd : d' ≠ d := fun he => hd (he ▸ hd')
      change push s.accepted d [m] d' = _
      rw [push_of_ne _ hdd, hs]
      rfl
    · intro hstop
      exact absurd hctl' (hstop _)
  · have hlast := hlast hl
    have hxl : x ∉ l := fun hm => hx (h.live x hm)
    have hne : s.last ≠ some x := by
      rw [hlast]
      exact fun he => hxl (List.mem_of_getLast? he)
    refine ⟨l ++ [x], ?_, ?_, ?_, hring, ?_, ?_⟩
    · have hor : next.or (some x) = next := by
        rw [hchain.start]
        cases l with
        | nil => exact absurd rfl hl
        | cons a l => rfl
      rw [St.rest, hctl']
      change Follows _ next _
      rw [← hor]
      exact append_follows d m hchain hlast hxl
    · exact live_append h.live x
    · rw [CtlOk, hctl', List.getLast?_concat]
      refine ⟨hfirst', Finset.mem_insert_of_mem hcur, ?_, fun _ => rfl⟩
      simp only [List.mem_append, List.mem_singleton, not_or]
      exact ⟨hcurl, hxcur⟩
    · intro d' hd'
      exact append_fifo (h.fifo d' hd') hne hxl
    · intro hstop
      exact absurd hctl' (hstop _)

/-! ## The calls of the process -/

theorem send_inv {s : St A D} {l : List A} (h : Inv only s l) {stop : Option (A × Option A)} (hctl : s.ctl = .run stop)
    {d : D} {dst_state : Runstate} {m : Msg} {x : A} (hx : x ∉ s.live)
    (hok : Ok only s (.send d dst_state m x)) : ∃ l', Inv only (shuso_ipc_send s stop d dst_state m x) l' := by
  unfold shuso_ipc_send
  split_ifs with hstate hbuf
  · exact ⟨l, h⟩
  · cases stop with
    | none =>
      refine ⟨l ++ [x], append_inv only h hctl m hx ?_⟩
      intro hd
      exact (hok hd).2 hctl
    | some x =>
      obtain ⟨cur, next⟩ := x
      refine append_inv_stop only h hctl m hx ?_
      rintro hd rfl
      exact (hok hd).1 cur hctl
  · have hfirst : s.first = none := by
      cases hf : s.first with
      | none => rfl
      | some f => exact absurd (Or.inl (by rw [hf]; rfl)) hbuf
    cases stop with
    | some x =>
      have hc := h.ctl
      rw [CtlOk, hctl] at hc
      exact absurd hfirst hc.1
    | none =>
      have hlast : s.last = l.getLast? := by
        have := h.ctl
        rwa [CtlOk, hctl] at this
      have hl : l = [] := by
        have hchain := h.chain
        rw [St.rest, hctl] at hchain
        exact hchain.of_none hfirst
      subst hl
      refine ⟨[], ?_, h.live, ?_, ?_, h.fifo, ?_⟩
      · exact hfirst
      · refine ⟨hfirst, hlast, ?_⟩
        intro hd
        exact (hok hd).2 hctl
      · intro d' hd'
        have hs := h.ring d' hd'
        rw [pcAt_run hctl] at hs
        simp only [St.pcAt]
        split_ifs
        · exact call_solo hs m
        · exact hs
      · intro _ d' _ _ a ha
        cases ha

/-- the message of cur is in the ring: its node is freed, and the loop goes on with the next one -/
theorem advance_inv {s : St A D} {l : List A} (h : Inv only s l) {cur : A} {pc : SendPc}
    (hctl : s.ctl = .retrying cur pc) (hpc : wasSent pc = true) :
    Inv only (retry_loop { s with first := (s.mem cur).next, live := s.live.erase cur }) l := by
  obtain ⟨-, -, -, hcurl, hlast⟩ : s.first = some cur ∧ cur ∈ s.live ∧ (∀ m ∈ sendMsg pc, m = (s.mem cur).msg) ∧
      cur ∉ l ∧ s.last = (cur :: l).getLast? := by
    have := h.ctl
    rw [CtlOk, hctl] at this
    simpa only [hpc, if_true] using this
  have hchain : Follows s.link (s.mem cur).next l := by
    have := h.chain
    rw [St.rest, hctl] at this
    simpa only [hpc, if_true] using this
  apply retry_loop_inv
  · refine ⟨hchain, ?_, ?_, ?_, h.fifo⟩
    · intro a ha
      have hne : a ≠ cur := fun he => hcurl (he ▸ ha)
      exact Finset.mem_erase.2 ⟨hne, h.live a ha⟩
    · intro hl
      change s.last = l.getLast?
      rw [hlast, List.getLast?_cons_of_ne_nil hl]
    · intro d hd
      have hs := h.ring d hd
      simp only [St.pcAt, hctl] at hs
      split_ifs at hs
      · exact returned_solo hs hpc
      · exact hs
  · apply h.done
    rw [hctl]
    exact fun y hy => by cases hy

theorem run_inv {s : St A D} {l : List A} (h : Inv only s l) {x : A} (hx : x ∉ s.live) :
    ∃ l', Inv only (runSend s x) l' := by
  cases hctl : s.ctl with
  | run stop =>
    refine ⟨l, ?_⟩
    simpa only [runSend, hctl] using h
  | sending stop d m pc =>
    cases stop with
    | some y =>
      have := h.ctl
      rw [CtlOk, hctl] at this
      exact absurd this id
    | none =>
      have hc : only d → s.cancelled d = [] := by
        have := h.ctl
        rw [CtlOk, hctl] at this
        exact this.2.2
      have hstep := sending_inv only h hctl
      rcases hst : send_step pc (s.buf d) with ⟨pc', b, ret⟩
      rw [hst] at hstep
      simp only [runSend, hctl, hst]
      cases ret with
      | none => exact ⟨l, hstep⟩
      | some ok =>
        have hidle : pc' = .idle := by
          have := @send_idle pc (s.buf d) (by rw [hst]; exact Option.some_ne_none ok)
          rwa [hst] at this
        subst hidle
        have hret := return_inv only hstep rfl
        cases ok with
        | true => exact ⟨l, hret⟩
        | false => exact ⟨l ++ [x], append_inv only hret rfl m hx hc⟩
  | retrying cur pc =>
    rcases hst : send_step pc (s.buf (s.mem cur).dst) with ⟨pc', b, ret⟩
    simp only [runSend, hctl, hst]
    cases hpc : wasSent pc with
    | true =>
      have hret : ret = some true := by
        have := (@send_returns pc (s.buf (s.mem cur).dst)).2 hpc
        rwa [hst] at this
      have hb : b = s.buf (s.mem cur).dst := by
        have := sent_buf (s.buf (s.mem cur).dst) hpc
        rwa [hst] at this
      subst hret hb
      rw [Function.update_eq_self]
      exact ⟨l, advance_inv only h hctl hpc⟩
    | false =>
      obtain ⟨l', hstep⟩ := retrying_inv only h hctl hpc
      rw [hst] at hstep
      have hne : ret ≠ some true := by
        have := mt (@send_returns pc (s.buf (s.mem cur).dst)).1 (by rw [hpc]; decide)
        rwa [hst] at this
      refine ⟨l', ?_⟩
      cases ret with
      | none => exact hstep
      | some ok =>
        have hidle : pc' = .idle := by
          have := @send_idle pc (s.buf (s.mem cur).dst) (by rw [hst]; exact Option.some_ne_none ok)
          rwa [hst] at this
        subst hidle
        cases ok with
        | true => exact absurd rfl hne
        | false => exact refused_inv only hstep rfl

/-- the cancel handler of cur returns: its node is freed, and the loop goes on with the saved `next` -/
theorem handled_inv {s : St A D} {l : List A} (h : Inv only s l) {cur : A} {next : Option A}
    (hctl : s.ctl = .run (some (cur, next))) :
    ∃ l', Inv only (stop_loop { s with live := s.live.erase cur } next) l' := by
  obtain ⟨hfirst, -, hcurl, hlast⟩ : s.first ≠ none ∧ cur ∈ s.live ∧ cur ∉ l ∧ (l ≠ [] → s.last = l.getLast?) := by
    have := h.ctl
    rwa [CtlOk, hctl] at this
  have hchain : Follows s.link next l := by
    have := h.chain
    rwa [St.rest, hctl] at this
  refine stop_loop_inv only ⟨hchain, ?_, hlast, h.ring_idle only (pcAt_run hctl), h.fifo⟩ fun _ => hfirst
  intro a ha
  have hne : a ≠ cur := fun he => hcurl (he ▸ ha)
  exact Finset.mem_erase.2 ⟨hne, h.live a ha⟩

/-! ## Runs -/

variable [DecidablePred only]

/-- **Every step keeps the order.** -/
theorem step_inv {s t : St A D} {a : Action A D} (h : ∃ l, Inv only s l) (hok : Ok only s a)
    (hst : step only s a = some t) : ∃ l, Inv only t l := by
  obtain ⟨l, h⟩ := h
  cases a with
  | send d dst_state m x =>
    cases hctl : s.ctl with
    | run stop =>
      simp only [step, hctl] at hst
      split_ifs at hst with hx
      cases hst
      exact send_inv only h hctl hx hok
    | sending stop d m pc => simp [step, hctl] at hst
    | retrying cur pc => simp [step, hctl] at hst
  | run x =>
    cases hctl : s.ctl with
    | run stop => simp [step, hctl] at hst
    | sending stop d m pc =>
      simp only [step, hctl] at hst
      split_ifs at hst with hx
      cases hst
      exact run_inv only h hx
    | retrying cur pc =>
      simp only [step, hctl] at hst
      split_ifs at hst with hx
      cases hst
      exact run_inv only h hx
  | retry =>
    cases hctl : s.ctl with
    | run stop =>
      cases stop with
      | none =>
        simp only [step, hctl] at hst
        split_ifs at hst
        cases hst
        refine ⟨l, retry_loop_inv only (h.atHead only hctl) (h.done ?_)⟩
        rw [hctl]
        exact fun y hy => by cases hy
      | some y => simp [step, hctl] at hst
    | sending stop d m pc => simp [step, hctl] at hst
    | retrying cur pc => simp [step, hctl] at hst
  | stop =>
    cases hctl : s.ctl with
    | run stop =>
      cases stop with
      | none =>
        simp only [step, hctl, Option.some.injEq] at hst
        subst hst
        exact stop_loop_inv only (h.atHead only hctl) id
      | some y => simp [step, hctl] at hst
    | sending stop d m pc => simp [step, hctl] at hst
    | retrying cur pc => simp [step, hctl] at hst
  | handled =>
    cases hctl : s.ctl with
    | run stop =>
      cases stop with
      | none => simp [step, hctl] at hst
      | some y =>
        obtain ⟨cur, next⟩ := y
        simp only [step, hctl, Option.some.injEq] at hst
        subst hst
        exact handled_inv only h hctl
    | sending stop d m pc => simp [step, hctl] at hst
    | retrying cur pc => simp [step, hctl] at hst
  | wake d =>
    simp only [step] at hst
    split_ifs at hst with hd
    cases hst
    exact ⟨l, wake_inv only h hd⟩
  | recv d =>
    simp only [step] at hst
    split_ifs at hst
    cases hst
    exact ⟨l, recv_inv only h d⟩
  | other d b =>
    simp only [step] at hst
    split_ifs at hst with hd
    cases hst
    exact ⟨l, other_inv only h hd b⟩

theorem reach_inv {mem : A → Outbuf A D} {s : St A D} (h : Reach (step only) (Ok only) (init mem) s) :
    ∃ l, Inv only s l :=
  h.inv ⟨[], init_inv only mem⟩ fun _ _ _ hs hok hst => step_inv only hs hok hst

/-- **Order and conservation.** In every run whose steps meet the condition, the messages delivered at a destination of
its own are a prefix of those accepted for it, and each accepted message is delivered, in the ring, in the outbox or
cancelled. -/
theorem conserved_of_ok (mem : A → Outbuf A D) (s : St A D) (h : Reach (step only) (Ok only) (init mem) s) (d : D)
    (hd : only d) : Conserved s d := by
  obtain ⟨l, hinv⟩ := reach_inv only h
  exact hinv.conserved only hd

/-- one destination, nothing in the memory -/
def start : St ℕ Unit := init fun _ => ⟨0, 0, (), none⟩

/-- a message to a destination that is starting: it waits in the outbox until the timer fires, and is delivered -/
def delayed : List (Action ℕ Unit) :=
  [.send () .starting ⟨20, 7⟩ 0, .retry] ++ List.replicate 8 (.run 1) ++ [.wake ()] ++ List.replicate 7 (.recv ())

theorem conserved_delayed :
    ∃ s, exec (step fun _ => True) start delayed = some s ∧ s.delivered () = [⟨20, 7⟩] ∧ Conserved s () := by
  have halong : Along (step fun _ => True) (Ok fun _ => True) start delayed := by
    refine ⟨?_, ?_⟩
    · intro _
      exact ⟨fun cur h => (by cases h), fun _ => rfl⟩
    · intro t _
      apply along_of_forall
      intro a ha s
      cases a with
      | send d dst_state m x => simp at ha
      | _ => trivial
  exact ⟨_, rfl, rfl, conserved_of_ok (fun _ => True) (fun _ => ⟨0, 0, (), none⟩) _ (Reach.init.of_along halong rfl) ()
    trivial⟩

/-- **A message is lost.** It is sent by the cancel handler of the last message of the outbox. -/
theorem message_lost : ¬ ∀ s : St ℕ Unit, Reach (step fun _ => True) always start s → Conserved s () := by
  intro h
  have hrun : ∃ s, exec (step fun _ => True) start
      [.send () .starting ⟨20, 7⟩ 0, .stop, .send () .running ⟨20, 8⟩ 1, .handled] = some s ∧
      s.accepted () = [⟨20, 7⟩, ⟨20, 8⟩] ∧ s.delivered () = [] ∧ inRing (s.buf ()) (s.recv ()) = [] ∧
      s.rest = none ∧ s.cancelled () = [⟨20, 7⟩] := ⟨_, rfl, rfl, rfl, rfl, rfl, rfl⟩
  obtain ⟨s, hs, hacc, hdel, hring, hrest, hcan⟩ := hrun
  obtain ⟨-, l, hl, hperm⟩ := h s (Reach.of_exec hs)
  have hnil : l = [] := hl.of_none hrest
  subst hnil
  rw [hacc, hdel, hring, hcan, buffered_nil] at hperm
  have hlen := hperm.length_eq
  simp at hlen

end Shuttlesock.Outbox
