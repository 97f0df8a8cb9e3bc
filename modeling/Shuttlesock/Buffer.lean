/-
The queue of a buffer: `shuso_buffer_init`, `shuso_buffer_queue`, `shuso_buffer_dequeue` and `shuso_buffer_free` of `buffer.c`.

Model: links are addresses `E`, `none` is NULL, and `link` is what the memory has at an address. Between two calls the program may write
to any link that is not queued (`shuso_buffer_link_init`, or free it and use the memory again).
- `apply`, `run`: the calls. `queued`, `runQueued`: the queue that a user of the buffer has in mind.
- `legal`: a link is fresh when it is queued, its next is NULL and it is not in the queue.

Results:
- `queue_good`, `dequeue_good`: the calls keep first, last and the chain of links together.
- `buffer_fifo`: the buffer is a queue, in every state that legal calls reach.
-/
import Mathlib.Tactic
import Shuttlesock.Core.Links

namespace Shuttlesock.BufferQueue

open Shuttlesock.Links

/-! ## The model -/

/-- `shuso_buffer_memory_type_t` -/
inductive MemoryType where
  | default
  | heap
  | pool
  | fixed
  | shared
  | mmapped
  | external
deriving DecidableEq

structure Link (E : Type*) where
  memory_type : MemoryType
  have_cleanup : Bool
  next : Option E

/-- `shuso_buffer_t`, and the memory -/
structure St (E : Type*) where
  first : Option E
  last : Option E
  memory_type : MemoryType
  link : E → Link E

variable {E : Type*}

def shuso_buffer_init (memory_type : MemoryType) (link : E → Link E) : St E := ⟨none, none, memory_type, link⟩

/-! ## A good buffer -/

def St.next (s : St E) (e : E) : Option E := (s.link e).next

/-- the links queued, from first over next to last -/
structure Good (s : St E) (live : List E) : Prop where
  chain : Follows s.next s.first live
  last : s.last = live.getLast?

theorem init_good (memory_type : MemoryType) (link : E → Link E) : Good (shuso_buffer_init memory_type link) [] := ⟨rfl, rfl⟩

theorem Good.first_none_iff {s : St E} {live : List E} (h : Good s live) : s.first = none ↔ live = [] := by
  rw [h.chain.start, List.head?_eq_none_iff]

theorem Good.last_none_iff {s : St E} {live : List E} (h : Good s live) : s.last = none ↔ live = [] := by
  rw [h.last, List.getLast?_eq_none_iff]

/-- what is not queued is neither first nor last -/
theorem Good.away {s : St E} {live : List E} {e : E} (h : Good s live) (he : e ∉ live) :
    s.first ≠ some e ∧ s.last ≠ some e := by
  constructor
  · intro hfirst
    rw [h.chain.start] at hfirst
    exact he (List.mem_of_mem_head? hfirst)
  · intro hlast
    rw [h.last] at hlast
    exact he (List.mem_of_getLast? hlast)

/-! ## The calls -/

inductive Release where
  | free
  | slab_free
  /-- memory of a pool or fixed memory -/
  | kept
deriving DecidableEq

inductive Freed where
  /-- the cleanup function of the link runs first, if it has one -/
  | done (cleanup : Bool) (release : Release)
  /-- `assert(buf->first != link && buf->last != link)` -/
  | assertion
  | abort
  /-- the link is NULL -/
  | null
deriving DecidableEq

section Calls

variable [DecidableEq E]

def shuso_buffer_free (s : St E) (link : Option E) : Freed :=
  if s.first ≠ link ∧ s.last ≠ link then
    match link with
    | none => .null
    | some e =>
      match if (s.link e).memory_type = .default then s.memory_type else (s.link e).memory_type with
      | .heap => .done (s.link e).have_cleanup .free
      | .pool => .done (s.link e).have_cleanup .kept
      | .fixed => .done (s.link e).have_cleanup .kept
      | .shared => .done (s.link e).have_cleanup .slab_free
      | .default => .abort
      | .external => .abort
      | .mmapped => .abort
  else .assertion

def write (s : St E) (e : E) (l : Link E) : St E := { s with link := Function.update s.link e l }

def shuso_buffer_queue (s : St E) (link : E) : St E :=
  let last := s.last
  let s := if s.first = none then { s with first := some link } else s
  let s := match last with
    | none => s
    | some e => write s e { s.link e with next := some link }
  { s with last := some link }

/-- what it returns, and the buffer then -/
def shuso_buffer_dequeue (s : St E) : Option E × St E :=
  match s.first with
  | none => (none, s)
  | some link =>
    let s := { s with first := (s.link link).next }
    let s := if s.last = some link then { s with last := none } else s
    (some link, s)

inductive Op (E : Type*) where
  /-- the program writes to a link -/
  | write (e : E) (l : Link E)
  | queue (link : E)
  | dequeue

def apply (s : St E) : Op E → Option E × St E
  | .write e l => (none, write s e l)
  | .queue link => (none, shuso_buffer_queue s link)
  | .dequeue => shuso_buffer_dequeue s

/-- a queue, as it should be -/
def queued (live : List E) : Op E → Option E × List E
  | .write _ _ => (none, live)
  | .queue link => (none, live ++ [link])
  | .dequeue => (live.head?, live.tail)

/-- only a fresh link is queued, and what is queued is not written to -/
def legal (s : St E) (live : List E) : Op E → Prop
  | .write e _ => e ∉ live
  | .queue link => link ∉ live ∧ (s.link link).next = none
  | .dequeue => True

/-- what the calls of a sequence return, and the last state -/
def run (s : St E) : List (Op E) → List (Option E) × St E
  | [] => ([], s)
  | op :: ops => ((apply s op).1 :: (run (apply s op).2 ops).1, (run (apply s op).2 ops).2)

def runQueued (live : List E) : List (Op E) → List (Option E) × List E
  | [] => ([], live)
  | op :: ops => ((queued live op).1 :: (runQueued (queued live op).2 ops).1, (runQueued (queued live op).2 ops).2)

/-- every operation of the sequence is legal where it is done -/
def Legal (s : St E) (live : List E) : List (Op E) → Prop
  | [] => True
  | op :: ops => legal s live op ∧ Legal (apply s op).2 (queued live op).2 ops

/-! ## What the calls keep -/

theorem next_write (s : St E) (e : E) (l : Link E) : (write s e l).next = Function.update s.next e l.next := by
  funext x
  by_cases hx : x = e
  · subst hx
    simp [St.next, write]
  · simp [St.next, write, hx]

theorem write_good {s : St E} {live : List E} {e : E} (h : Good s live) (he : e ∉ live) (l : Link E) : Good (write s e l) live := by
  refine ⟨?_, h.last⟩
  rw [next_write]
  exact h.chain.update he

theorem queue_good {s : St E} {live : List E} {link : E} (h : Good s live) (hlink : link ∉ live) (hnext : s.next link = none) :
    Good (shuso_buffer_queue s link) (live ++ [link]) := by
  rcases List.eq_nil_or_concat' live with rfl | ⟨l, t, rfl⟩
  · -- first and last are both NULL, and both become the link
    have hfirst : s.first = none := h.chain
    have hlast : s.last = none := h.last
    have hqueue : shuso_buffer_queue s link = { s with first := some link, last := some link } := by
      simp [shuso_buffer_queue, hfirst, hlast]
    rw [hqueue]
    exact ⟨⟨rfl, hnext⟩, rfl⟩
  · -- both are not NULL, and the last link gets a next one
    have hfirst : s.first ≠ none := fun hnone => by simpa using h.chain.of_none hnone
    have hlast : s.last = some t := by rw [h.last, List.getLast?_concat]
    have hqueue : shuso_buffer_queue s link =
        { write s t { s.link t with next := some link } with last := some link } := by
      simp [shuso_buffer_queue, hfirst, hlast, write]
    have hupdate : (shuso_buffer_queue s link).next = Function.update (Function.update s.next t (some link)) link none := by
      have htl : link ≠ t := fun heq => hlink (by simp [heq])
      rw [hqueue]
      show (write s t _).next = _
      rw [next_write, eq_comm, Function.update_eq_self_iff, Function.update_of_ne htl]
      exact hnext.symm
    have hsnoc := h.chain.snoc hlink
    refine ⟨?_, by rw [hqueue, List.getLast?_concat]⟩
    rw [hupdate, List.append_assoc, List.singleton_append]
    rw [hqueue]
    exact hsnoc

theorem dequeue_good {s : St E} {live : List E} (h : Good s live) :
    (shuso_buffer_dequeue s).1 = live.head? ∧ Good (shuso_buffer_dequeue s).2 live.tail := by
  cases live with
  | nil =>
    have hfirst : s.first = none := h.chain
    rw [shuso_buffer_dequeue, hfirst]
    exact ⟨rfl, h⟩
  | cons e l =>
    obtain ⟨hfirst, hrest⟩ := h.chain
    have hnodup := List.nodup_cons.1 h.chain.nodup
    have hlast := h.last
    rw [shuso_buffer_dequeue, hfirst]
    refine ⟨rfl, ?_⟩
    dsimp only
    rcases List.eq_nil_or_concat' l with rfl | ⟨k, t, rfl⟩
    · rw [if_pos (by rw [hlast]; rfl)]
      exact ⟨hrest, rfl⟩
    · have htlast : (e :: (k ++ [t])).getLast? = some t := by rw [← List.cons_append, List.getLast?_concat]
      have hte : t ≠ e := fun heq => hnodup.1 (by simp [heq])
      rw [if_neg (by rw [hlast, htlast]; simpa using hte)]
      refine ⟨hrest, ?_⟩
      rw [List.tail_cons, List.getLast?_concat]
      exact hlast.trans htlast

theorem free_away {s : St E} {e : E} (h : s.first ≠ some e ∧ s.last ≠ some e) : shuso_buffer_free s (some e) ≠ .assertion := by
  rw [shuso_buffer_free, if_pos h]
  split <;> simp

/-! ## Every sequence of calls -/

/-- **The property** of a buffer where these links are queued. -/
structure Fifo (s : St E) (live : List E) : Prop where
  /-- from first along next to last -/
  chain : Follows s.next s.first live
  last : s.last = live.getLast?
  empty : s.first = none ↔ s.last = none
  next_out : (shuso_buffer_dequeue s).1 = live.head?
  none_out : (shuso_buffer_dequeue s).1 = none ↔ live = []
  /-- a link that comes out can be freed -/
  freed : ∀ e t, shuso_buffer_dequeue s = (some e, t) →
    t.first ≠ some e ∧ t.last ≠ some e ∧ shuso_buffer_free t (some e) ≠ .assertion

theorem Good.fifo {s : St E} {live : List E} (h : Good s live) : Fifo s live := by
  obtain ⟨hout, hgood⟩ := dequeue_good h
  refine ⟨h.chain, h.last, h.first_none_iff.trans h.last_none_iff.symm, hout, by rw [hout, List.head?_eq_none_iff], ?_⟩
  intro e t hdequeue
  rw [hdequeue] at hout hgood
  have he : e ∉ live.tail := by
    have hnodup := h.chain.nodup
    cases live with
    | nil => cases hout
    | cons x l =>
      obtain rfl := Option.some.inj hout
      exact (List.nodup_cons.1 hnodup).1
  have haway := hgood.away he
  exact ⟨haway.1, haway.2, free_away haway⟩

theorem step_good {s : St E} {live : List E} {op : Op E} (h : Good s live) (hlegal : legal s live op) :
    (apply s op).1 = (queued live op).1 ∧ Good (apply s op).2 (queued live op).2 := by
  cases op with
  | write e l => exact ⟨rfl, write_good h hlegal l⟩
  | queue link => exact ⟨rfl, queue_good h hlegal.1 hlegal.2⟩
  | dequeue => exact dequeue_good h

theorem run_good {ops : List (Op E)} {s : St E} {live : List E} (h : Good s live) (hlegal : Legal s live ops) :
    (run s ops).1 = (runQueued live ops).1 ∧ Good (run s ops).2 (runQueued live ops).2 := by
  induction ops generalizing s live with
  | nil => exact ⟨rfl, h⟩
  | cons op ops ih =>
    obtain ⟨hout, hgood⟩ := step_good h hlegal.1
    obtain ⟨houts, hlater⟩ := ih hgood hlegal.2
    refine ⟨?_, hlater⟩
    rw [run, runQueued, hout, houts]

/-- **The buffer is a queue.** Whatever is queued and dequeued, the links come out in the order in which they were queued, and in every
state that is reached first and last agree and the next link that comes out can be freed. -/
theorem buffer_fifo (memory_type : MemoryType) (link : E → Link E) (ops : List (Op E))
    (h : Legal (shuso_buffer_init memory_type link) [] ops) :
    (run (shuso_buffer_init memory_type link) ops).1 = (runQueued [] ops).1 ∧
      Fifo (run (shuso_buffer_init memory_type link) ops).2 (runQueued [] ops).2 := by
  obtain ⟨hout, hgood⟩ := run_good (init_good memory_type link) h
  exact ⟨hout, hgood.fifo⟩

/-- links that are clean -/
def clean (_ : ℕ) : Link ℕ := ⟨.default, false, none⟩

/-- the queue empties and fills again, and a link comes back -/
def refill : List (Op ℕ) := [.queue 1, .queue 2, .dequeue, .dequeue, .dequeue, .write 1 (clean 1), .queue 1, .dequeue]

theorem buffer_fifo_refill :
    Legal (shuso_buffer_init .heap clean) [] refill ∧
      (run (shuso_buffer_init .heap clean) refill).1 = (runQueued [] refill).1 ∧
      Fifo (run (shuso_buffer_init .heap clean) refill).2 (runQueued [] refill).2 := by
  have hlegal : Legal (shuso_buffer_init .heap clean) [] refill := by
    simp [refill, Legal, legal, apply, queued, shuso_buffer_init, shuso_buffer_queue, shuso_buffer_dequeue, write, clean]
  exact ⟨hlegal, buffer_fifo .heap clean refill hlegal⟩

end Calls

end Shuttlesock.BufferQueue
