import ShardedLedger.Foundation.Schedules
import ShardedLedger.Server.Memory
import ShardedLedger.Server.Retrieve
set_option autoImplicit false

/-!
# Server: allocation and release over whole runs

A process makes one call into the chain code after the other, among them
`free_blockchain`.  The allocator is any function of the heap that answers with
an address not in use, or with nothing.

`Process.run_refines`: no run faults, every loop of it ends, and memory and
replies are those of the list model.  `Process.free_all`: what was allocated is
freed, block by block, as often as it was allocated.
-/

namespace ShardedLedger.Server

open CString Sha256 LinkedList

/-- A call into the chain code. -/
inductive ChainCall where
  | store (payload : Bytes)
  | retrieve
  | validate
  | free

/-- What a call gives back. -/
inductive Reply where
  | stored
  | text (response : Bytes)
  | verdict (valid : Bool)
  | freed

/-- `malloc`, by the number of the allocation and the heap: an address that is
not allocated with the bytes found there, or nothing. -/
structure Allocator (Addr : Type) where
  malloc : Nat → Heap Addr RawBlock → Option (Addr × Cell Addr RawBlock)
  fresh : ∀ {n : Nat} {heap : Heap Addr RawBlock} {a : Addr} {cell : Cell Addr RawBlock},
    malloc n heap = some (a, cell) → heap a = none

/-- A process that holds a chain.  The lists of the addresses allocated and
freed so far are for the statements about them. -/
structure Process (Addr : Type) where
  memory : Memory Addr
  /-- The number of allocations asked for. -/
  mallocs : Nat
  allocated : List Addr
  freed : List Addr
  replies : List Reply

/-- The process before its first call. -/
def Process.start (Addr : Type) : Process Addr := ⟨⟨Heap.empty, none⟩, 0, [], [], []⟩

section

variable {Addr : Type} [DecidableEq Addr] (sha256 : Bytes → Digest) (allocator : Allocator Addr)

/-- The process after a call that left the given memory and gave the reply. -/
def Process.answer (process : Process Addr) (memory : Memory Addr) (reply : Reply) :
    Process Addr :=
  { process with memory := memory, replies := process.replies ++ [reply] }

/-- The process after an allocation, whether it returned an address or not. -/
def Process.allocate (process : Process Addr) (address : Option Addr) : Process Addr :=
  { process with
    mallocs := process.mallocs + 1
    allocated := process.allocated ++ address.toList }

/-- One call. -/
def Process.call (fuel : Nat) (process : Process Addr) : ChainCall → Option (Process Addr)
  | .store payload => do
      let malloc := allocator.malloc process.mallocs process.memory.heap
      let stored ← storeDataAt sha256 fuel malloc payload process.memory
      return (process.allocate (malloc.map Prod.fst)).answer stored.memory .stored
  | .retrieve => do
      let retrieved ← retrieveDataAt sha256 fuel process.memory
      return process.answer ⟨retrieved.heap, process.memory.blockchainHead⟩
        (.text retrieved.response)
  | .validate => do
      let validation ← validateBlockchainAt sha256 fuel process.memory
      return process.answer ⟨validation.heap, process.memory.blockchainHead⟩
        (.verdict validation.valid)
  | .free => do
      -- `free_blockchain()`
      let freed ← freeLoop fuel process.memory.heap process.memory.blockchainHead
      return { process.answer ⟨freed.heap, none⟩ .freed with
        freed := process.freed ++ freed.freed }

/-- What the allocator answers in a call; only `store_data` asks it. -/
def Process.asked (process : Process Addr) : ChainCall → Option (Addr × Cell Addr RawBlock)
  | .store _ => allocator.malloc process.mallocs process.memory.heap
  | _ => none

/-- What the allocator answers along a run, call by call. -/
def Process.answers (fuel : Nat) (process : Process Addr) :
    List ChainCall → List (Option (Addr × Cell Addr RawBlock))
  | [] => []
  | call :: calls =>
      process.asked allocator call ::
        match process.call sha256 allocator fuel call with
        | none => []
        | some process' => process'.answers fuel calls

/-- A sequence of calls. -/
def Process.run (fuel : Nat) (process : Process Addr) (calls : List ChainCall) :
    Option (Process Addr) :=
  Schedules.run (Process.call sha256 allocator fuel) process calls

/-! ## The list model of a run -/

/-- The chain and the reply of one call, on a chain as the list of its blocks;
`malloc` is what an allocation of the call returns. -/
def ChainCall.onList (chain : List Block) (malloc : Option RawBlock) :
    ChainCall → List Block × Reply
  | .store payload => ((storeData sha256 malloc payload chain).blocks, .stored)
  | .retrieve => ((retrieveData sha256 chain).blocks, .text (retrieveData sha256 chain).response)
  | .validate =>
      ((validateBlockchain sha256 chain).blocks, .verdict (validateBlockchain sha256 chain).valid)
  | .free => ([], .freed)

/-- The bytes found where an allocation points. -/
def contentOf (malloc : Option (Addr × Cell Addr RawBlock)) : Option RawBlock :=
  malloc.map fun block => block.2.content

/-- The chain and the replies of a sequence of calls. -/
def listRun (chain : List Block) : List (ChainCall × Option RawBlock) → List Block × List Reply
  | [] => (chain, [])
  | (call, malloc) :: calls =>
      let next := call.onList sha256 chain malloc
      let rest := listRun next.1 calls
      (rest.1, next.2 :: rest.2)

/-! ## The invariant -/

/-- **Invariant.**  Memory holds the chain at the addresses `as` and nothing
else, the chain is one that calls lead to, and what was allocated is what was
freed and what the chain holds. -/
structure Process.Sound (process : Process Addr) (as : List Addr) (chain : List Block) : Prop where
  holds : Holds process.memory.heap process.memory.blockchainHead as chain
  owns : process.memory.heap.Owns as
  reachable : Reachable sha256 chain
  balance : process.allocated.Perm (process.freed ++ as)

omit [DecidableEq Addr] in
theorem Process.start_sound : (Process.start Addr).Sound sha256 [] [] :=
  ⟨.nil none, Heap.owns_empty, ⟨[], rfl⟩, .nil⟩

theorem reachable_apply {chain : List Block} (h : Reachable sha256 chain) (op : Operation) :
    Reachable sha256 (op.apply sha256 chain) := by
  obtain ⟨ops, rfl⟩ := h
  exact ⟨ops ++ [op], runOperations_concat sha256 ops op⟩

/-- A step of the invariant, for a call that stores. -/
theorem Process.call_store {process : Process Addr} {as : List Addr} {chain : List Block}
    {fuel : Nat} (h : process.Sound sha256 as chain) (hfuel : as.length + 1 < fuel)
    (payload : Bytes) :
    ∃ process' bs ds, process.call sha256 allocator fuel (.store payload) = some process' ∧
      (ChainCall.store payload).onList sha256 chain
        (contentOf (process.asked allocator (.store payload))) = (chain ++ ds, .stored) ∧
      process'.Sound sha256 (as ++ bs) (chain ++ ds) ∧ bs.length ≤ 1 ∧
      process'.allocated =
        process.allocated ++ (process.asked allocator (.store payload)).toList.map Prod.fst ∧
      process'.replies = process.replies ++ [.stored] := by
  rw [asked]
  cases hmalloc : allocator.malloc process.mallocs process.memory.heap with
  | none =>
      refine ⟨(process.allocate none).answer process.memory .stored, [], [], ?_, ?_, ?_,
        Nat.zero_le 1, rfl, rfl⟩
      · simp only [call, hmalloc, storeDataAt, Option.bind_eq_bind, Option.bind_some,
          Option.pure_def, Option.map_none]
      · rw [contentOf, Option.map_none, ChainCall.onList, storeData_none, List.append_nil]
      · rw [List.append_nil, List.append_nil]
        have hbalance : (process.allocated ++ []).Perm (process.freed ++ as) := by
          rw [List.append_nil]
          exact h.balance
        exact ⟨h.holds, h.owns, h.reachable, hbalance⟩
  | some block =>
      obtain ⟨b, cell⟩ := block
      obtain ⟨memory', hstore, hholds, howns⟩ := storeDataAt_eq sha256 h.holds h.owns
        (allocator.fresh hmalloc) hfuel cell payload
      obtain ⟨block, -, hblocks⟩ := (append_only sha256 chain h.reachable).1 cell.content payload
      rw [hblocks] at hholds
      refine ⟨(process.allocate (some b)).answer memory' .stored, [b], [block],
        ?_, ?_, ?_, Nat.le_refl 1, rfl, rfl⟩
      · simp only [call, hmalloc, hstore, Option.bind_eq_bind, Option.bind_some,
          Option.pure_def, Option.map_some]
      · rw [contentOf, Option.map_some, ChainCall.onList, hblocks]
      · have hreachable := reachable_apply sha256 h.reachable (.store (some cell.content) payload)
        rw [Operation.apply, hblocks] at hreachable
        have hbalance : (process.allocated ++ [b]).Perm (process.freed ++ (as ++ [b])) := by
          rw [← List.append_assoc]
          exact h.balance.append_right [b]
        exact ⟨hholds, howns, hreachable, hbalance⟩

omit [DecidableEq Addr] in
/-- A step of the invariant, for a call that only validates or retrieves: no
block moves or changes. -/
theorem Process.Sound.answer {process : Process Addr} {as : List Addr} {chain : List Block}
    (h : process.Sound sha256 as chain) {heap : Heap Addr RawBlock}
    (hholds : Holds heap process.memory.blockchainHead as (validateBlockchain sha256 chain).blocks)
    (howns : heap.Owns as) (reply : Reply) :
    (process.answer ⟨heap, process.memory.blockchainHead⟩ reply).Sound sha256 (as ++ [])
      (chain ++ []) := by
  rw [validateBlockchain_blocks_of_reachable sha256 h.reachable] at hholds
  rw [List.append_nil, List.append_nil]
  exact ⟨hholds, howns, h.reachable, h.balance⟩

/-- **A call that frees nothing** succeeds, answers what the list model answers,
and leaves the blocks where and as they are, at most with one behind them. -/
theorem Process.call_keeps {process : Process Addr} {as : List Addr} {chain : List Block}
    {fuel : Nat} (h : process.Sound sha256 as chain) (hfuel : as.length + 1 < fuel)
    {call : ChainCall} (hcall : call ≠ .free) :
    ∃ process' bs ds reply, process.call sha256 allocator fuel call = some process' ∧
      call.onList sha256 chain (contentOf (process.asked allocator call)) = (chain ++ ds, reply) ∧
      process'.Sound sha256 (as ++ bs) (chain ++ ds) ∧ bs.length ≤ 1 ∧
      process'.allocated =
        process.allocated ++ (process.asked allocator call).toList.map Prod.fst ∧
      process'.replies = process.replies ++ [reply] := by
  have hlength := Nat.lt_of_succ_lt hfuel
  have hblocks := validateBlockchain_blocks_of_reachable sha256 h.reachable
  cases call with
  | store payload =>
      obtain ⟨process', bs, ds, hstep⟩ := call_store sha256 allocator h hfuel payload
      exact ⟨process', bs, ds, .stored, hstep⟩
  | retrieve =>
      obtain ⟨heap', hretrieve, hholds, howns⟩ :=
        retrieveDataAt_eq sha256 h.holds h.owns hlength
      refine ⟨process.answer ⟨heap', process.memory.blockchainHead⟩
        (.text (retrieveData sha256 chain).response), [], [],
        .text (retrieveData sha256 chain).response, ?_, ?_, h.answer sha256 hholds howns _,
        Nat.zero_le 1, (List.append_nil _).symm, rfl⟩
      · simp only [Process.call, hretrieve, Option.bind_eq_bind, Option.bind_some, Option.pure_def]
      · rw [List.append_nil]
        exact Prod.ext hblocks rfl
  | validate =>
      obtain ⟨heap', hvalidate, hholds, howns⟩ :=
        validateBlockchainAt_eq sha256 h.holds h.owns hlength
      refine ⟨process.answer ⟨heap', process.memory.blockchainHead⟩
        (.verdict (validateBlockchain sha256 chain).valid), [], [],
        .verdict (validateBlockchain sha256 chain).valid, ?_, ?_, h.answer sha256 hholds howns _,
        Nat.zero_le 1, (List.append_nil _).symm, rfl⟩
      · simp only [Process.call, hvalidate, Option.bind_eq_bind, Option.bind_some, Option.pure_def]
      · rw [List.append_nil]
        exact Prod.ext hblocks rfl
  | free => exact absurd rfl hcall

/-- **`free_blockchain`** empties the heap and the chain. -/
theorem Process.call_free {process : Process Addr} {as : List Addr} {chain : List Block}
    {fuel : Nat} (h : process.Sound sha256 as chain) (hfuel : as.length < fuel) :
    ∃ process', process.call sha256 allocator fuel .free = some process' ∧
      process'.Sound sha256 [] [] ∧ process'.freed = process.freed ++ as ∧
      process'.allocated = process.allocated ∧
      process'.replies = process.replies ++ [.freed] := by
  obtain ⟨heap', hloop, hfreed, hother⟩ := freeLoop_eq h.holds hfuel
  have howns : heap'.Owns [] := by
    intro a
    refine iff_of_false ?_ List.not_mem_nil
    by_cases ha : a ∈ as
    · rw [hfreed a ha]
      exact Bool.false_ne_true
    · rw [hother a ha, h.owns a]
      exact ha
  have hbalance : process.allocated.Perm ((process.freed ++ as) ++ []) := by
    rw [List.append_nil]
    exact h.balance
  refine ⟨{ process.answer ⟨heap', none⟩ .freed with freed := process.freed ++ as }, ?_,
    ⟨.nil none, howns, ⟨[], rfl⟩, hbalance⟩, rfl, rfl, rfl⟩
  simp only [call, hloop, Option.bind_eq_bind, Option.bind_some, Option.pure_def]

/-! ## Runs -/

theorem Process.run_cons (fuel : Nat) (process : Process Addr) (call : ChainCall)
    (calls : List ChainCall) : process.run sha256 allocator fuel (call :: calls) =
      (process.call sha256 allocator fuel call).bind fun process' =>
        process'.run sha256 allocator fuel calls := Schedules.run_cons _ _ _ _

/-- One call, whatever it is. -/
theorem Process.call_sound {process : Process Addr} {as : List Addr} {chain : List Block}
    {fuel : Nat} (h : process.Sound sha256 as chain) (hfuel : as.length + 1 < fuel)
    (call : ChainCall) :
    let next := call.onList sha256 chain (contentOf (process.asked allocator call))
    ∃ process' as', process.call sha256 allocator fuel call = some process' ∧
      process'.Sound sha256 as' next.1 ∧ as'.length ≤ as.length + 1 ∧
      process'.allocated =
        process.allocated ++ (process.asked allocator call).toList.map Prod.fst ∧
      process'.replies = process.replies ++ [next.2] := by
  intro next
  by_cases hcall : call = .free
  · subst hcall
    obtain ⟨process', hstep, hsound, -, hallocated, hreplies⟩ :=
      call_free sha256 allocator h (Nat.lt_of_succ_lt hfuel)
    exact ⟨process', [], hstep, hsound, Nat.zero_le _,
      hallocated.trans (List.append_nil _).symm, hreplies⟩
  · obtain ⟨process', bs, ds, reply, hstep, honList, hsound, hlength, hallocated, hreplies⟩ :=
      call_keeps sha256 allocator h hfuel hcall
    have hnext : next = (chain ++ ds, reply) := honList
    rw [hnext]
    refine ⟨process', as ++ bs, hstep, hsound, ?_, hallocated, hreplies⟩
    rw [List.length_append]
    exact Nat.add_le_add_left hlength _

theorem Process.answers_cons {fuel : Nat} {process process' : Process Addr} {call : ChainCall}
    (hstep : process.call sha256 allocator fuel call = some process') (calls : List ChainCall) :
    process.answers sha256 allocator fuel (call :: calls) =
      process.asked allocator call :: process'.answers sha256 allocator fuel calls := by
  rw [answers, hstep]

theorem Process.run_sound {calls : List ChainCall} {process : Process Addr} {as : List Addr}
    {chain : List Block} {fuel : Nat} (h : process.Sound sha256 as chain)
    (hfuel : as.length + calls.length < fuel) :
    let answers := process.answers sha256 allocator fuel calls
    let list := listRun sha256 chain (calls.zip (answers.map contentOf))
    ∃ process' as', process.run sha256 allocator fuel calls = some process' ∧
      answers.length = calls.length ∧ as'.length ≤ as.length + calls.length ∧
      process'.Sound sha256 as' list.1 ∧
      process'.allocated = process.allocated ++ (answers.flatMap Option.toList).map Prod.fst ∧
      process'.replies = process.replies ++ list.2 := by
  induction calls generalizing process as chain with
  | nil =>
      exact ⟨process, as, rfl, rfl, Nat.le_refl _, h, (List.append_nil _).symm,
        (List.append_nil _).symm⟩
  | cons call calls ih =>
      rw [List.length_cons] at hfuel
      have hfirst : as.length + 1 < fuel := by omega
      obtain ⟨process', as', hstep, hsound, hlength, hallocated, hreplies⟩ :=
        call_sound sha256 allocator h hfirst call
      have hrest : as'.length + calls.length < fuel := by omega
      obtain ⟨process'', as'', hrun, hanswers, hlength', hsound', hallocated', hreplies'⟩ :=
        ih hsound hrest
      rw [answers_cons sha256 allocator hstep]
      refine ⟨process'', as'', ?_, congrArg Nat.succ hanswers, ?_, hsound', ?_, ?_⟩
      · rw [run_cons, hstep, Option.bind_some, hrun]
      · rw [List.length_cons]
        omega
      · rw [hallocated', hallocated, List.flatMap_cons, List.map_append, List.append_assoc]
      · rw [hreplies', hreplies, List.append_assoc]
        rfl

/-- **Memory safety and refinement over whole runs.**  Whatever addresses the
allocator picks, and whichever allocations fail, a run makes no invalid access
and each of its loops ends, with one iteration more than there were calls at the
most.  With what the allocator has answered in the run: the list at
`blockchain_head` is acyclic, holds the chain of the list model at the addresses
allocated and not yet freed, and nothing else is allocated; and the replies are
those of the list model. -/
theorem Process.run_refines (calls : List ChainCall) {fuel : Nat} (hfuel : calls.length < fuel) :
    let answers := (start Addr).answers sha256 allocator fuel calls
    let list := listRun sha256 [] (calls.zip (answers.map contentOf))
    ∃ process as, (start Addr).run sha256 allocator fuel calls = some process ∧
      answers.length = calls.length ∧
      Holds process.memory.heap process.memory.blockchainHead as list.1 ∧
      process.memory.heap.Owns as ∧ as.Nodup ∧
      process.allocated = (answers.flatMap Option.toList).map Prod.fst ∧
      process.allocated.Perm (process.freed ++ as) ∧
      Reachable sha256 list.1 ∧ process.replies = list.2 := by
  have hstart : ([] : List Addr).length + calls.length < fuel := by rwa [List.length_nil, Nat.zero_add]
  obtain ⟨process, as, hrun, hanswers, -, hsound, hallocated, hreplies⟩ :=
    run_sound sha256 allocator (start_sound sha256) hstart
  exact ⟨process, as, hrun, hanswers, hsound.holds, hsound.owns, hsound.holds.nodup,
    hallocated, hsound.balance, hsound.reachable, hreplies⟩

/-- An allocator that hands out one address after the other, with zeros. -/
def bumpAllocator : Allocator Nat where
  malloc n heap := if (heap n).isSome then none else some (n, ⟨zeroBlock, none⟩)
  fresh := by
    intro n heap a cell h
    split at h
    · cases h
    · rename_i hnone
      cases h
      simpa using hnone

/-- The theorem at two stores, a retrieval and a release. -/
theorem Process.run_refines_two_stores :
    let calls := [.store (ascii "a"), .store (ascii "b"), .retrieve, .free]
    let answers := (start Nat).answers Sha256.sha256 bumpAllocator 5 calls
    let list := listRun Sha256.sha256 [] (calls.zip (answers.map contentOf))
    ∃ process as, (start Nat).run Sha256.sha256 bumpAllocator 5 calls = some process ∧
      answers.length = calls.length ∧
      Holds process.memory.heap process.memory.blockchainHead as list.1 ∧
      process.memory.heap.Owns as ∧ as.Nodup ∧
      process.allocated = (answers.flatMap Option.toList).map Prod.fst ∧
      process.allocated.Perm (process.freed ++ as) ∧
      Reachable Sha256.sha256 list.1 ∧ process.replies = list.2 :=
  run_refines Sha256.sha256 bumpAllocator [.store (ascii "a"), .store (ascii "b"), .retrieve,
    .free] (by decide)

theorem Process.run_append (fuel : Nat) (process : Process Addr) (calls more : List ChainCall) :
    process.run sha256 allocator fuel (calls ++ more) =
      (process.run sha256 allocator fuel calls).bind fun process' =>
        process'.run sha256 allocator fuel more := Schedules.run_append _ _ _ _

/-- What a run from the start leads to. -/
theorem Process.start_run_sound (calls : List ChainCall) {fuel : Nat}
    (hfuel : calls.length < fuel) :
    ∃ process as chain, (start Addr).run sha256 allocator fuel calls = some process ∧
      process.Sound sha256 as chain ∧ as.length ≤ calls.length := by
  have hstart : ([] : List Addr).length + calls.length < fuel := by rwa [List.length_nil, Nat.zero_add]
  obtain ⟨process, as, hrun, -, hlength, hsound, -, -⟩ :=
    run_sound sha256 allocator (start_sound sha256) hstart
  rw [List.length_nil, Nat.zero_add] at hlength
  exact ⟨process, as, _, hrun, hsound, hlength⟩

/-- **Release.**  After any run `free_blockchain` ends without a fault.  It
frees the blocks of the chain, each once, and these are all that is allocated:
the heap is empty, the head null, and over the whole run every address was freed
as often as it was allocated. -/
theorem Process.free_all (calls : List ChainCall) {fuel : Nat} (hfuel : calls.length < fuel) :
    ∃ before after as, (start Addr).run sha256 allocator fuel calls = some before ∧
      (start Addr).run sha256 allocator fuel (calls ++ [.free]) = some after ∧
      before.memory.heap.Owns as ∧ as.Nodup ∧ after.freed = before.freed ++ as ∧
      after.memory = ⟨Heap.empty, none⟩ ∧ after.freed.Perm after.allocated := by
  obtain ⟨before, as, chain, hrun, hsound, hlength⟩ := start_run_sound sha256 allocator calls hfuel
  obtain ⟨after, hfree, hafter, hfreed, -, -⟩ :=
    call_free sha256 allocator hsound (Nat.lt_of_le_of_lt hlength hfuel)
  refine ⟨before, after, as, hrun, ?_, hsound.owns, hsound.holds.nodup, hfreed, ?_, ?_⟩
  · rw [run_append, hrun, Option.bind_some, run_cons, hfree]
    rfl
  · have hheap := hafter.owns.eq_empty
    have hhead := hafter.holds.eq_of_nil
    rcases after with ⟨⟨heap, head⟩, _, _, _, _⟩
    exact congrArg₂ Memory.mk hheap hhead
  · have hbalance := hafter.balance
    rw [List.append_nil] at hbalance
    exact hbalance.symm

/-- The theorem at two stores. -/
theorem Process.free_all_two_stores :
    ∃ before after as, (start Nat).run Sha256.sha256 bumpAllocator 3
        [.store (ascii "a"), .store (ascii "b")] = some before ∧
      (start Nat).run Sha256.sha256 bumpAllocator 3
        ([.store (ascii "a"), .store (ascii "b")] ++ [.free]) = some after ∧
      before.memory.heap.Owns as ∧ as.Nodup ∧ after.freed = before.freed ++ as ∧
      after.memory = ⟨Heap.empty, none⟩ ∧ after.freed.Perm after.allocated :=
  free_all Sha256.sha256 bumpAllocator _ (by decide)

/-! ## Blocks stay where they are -/

/-- Between two releases the addresses and the chain only grow at the end. -/
theorem Process.run_keeps {calls : List ChainCall} {process : Process Addr} {as : List Addr}
    {chain : List Block} {fuel : Nat} (h : process.Sound sha256 as chain)
    (hfuel : as.length + calls.length < fuel) (hcalls : ∀ call ∈ calls, call ≠ .free) :
    ∃ process' bs ds, process.run sha256 allocator fuel calls = some process' ∧
      process'.Sound sha256 (as ++ bs) (chain ++ ds) := by
  induction calls generalizing process as chain with
  | nil =>
      refine ⟨process, [], [], rfl, ?_⟩
      rwa [List.append_nil, List.append_nil]
  | cons call calls ih =>
      rw [List.length_cons] at hfuel
      rw [List.forall_mem_cons] at hcalls
      have hfirst : as.length + 1 < fuel := by omega
      obtain ⟨process', bs, ds, _, hstep, -, hsound, hlength, -, -⟩ :=
        call_keeps sha256 allocator h hfirst hcalls.1
      have hrest : (as ++ bs).length + calls.length < fuel := by
        rw [List.length_append]
        omega
      obtain ⟨process'', bs', ds', hrun, hsound'⟩ := ih hsound hrest hcalls.2
      refine ⟨process'', bs ++ bs', ds ++ ds', ?_, ?_⟩
      · rw [run_cons, hstep, Option.bind_some, hrun]
      · rwa [← List.append_assoc, ← List.append_assoc]

/-- **Stored blocks stay.**  Until the chain is released, a block keeps its
address and all of its bytes, whatever is stored, retrieved and validated after
it; its `next` pointer is written at most once, from null to a later block. -/
theorem Process.blocks_stay (calls more : List ChainCall) {fuel : Nat}
    (hfuel : (calls ++ more).length < fuel) (hmore : ∀ call ∈ more, call ≠ .free) :
    ∃ before after, (start Addr).run sha256 allocator fuel calls = some before ∧
      (start Addr).run sha256 allocator fuel (calls ++ more) = some after ∧
      ∀ a cell, before.memory.heap a = some cell →
        ∃ next, after.memory.heap a = some ⟨cell.content, next⟩ ∧
          ∀ b, cell.next = some b → next = some b := by
  rw [List.length_append] at hfuel
  have hcalls : calls.length < fuel := by omega
  obtain ⟨before, as, chain, hrun, hsound, hlength⟩ := start_run_sound sha256 allocator calls hcalls
  have hrest : as.length + more.length < fuel := by omega
  obtain ⟨after, bs, ds, hrun', hsound'⟩ := run_keeps sha256 allocator hsound hrest hmore
  refine ⟨before, after, hrun, ?_, fun a cell hcell => ?_⟩
  · rw [run_append, hrun, Option.bind_some, hrun']
  · have ha : a ∈ as := (hsound.owns a).mp (Option.isSome_of_eq_some hcell)
    obtain ⟨first, rest, rfl⟩ := List.exists_cons_of_ne_nil (List.ne_nil_of_mem ha)
    have hhead := hsound.holds.head_eq
    have hholds := hsound.holds
    have hholds' := hsound'.holds
    rw [Holds, List.map_append, hsound'.holds.head_eq, ← hhead] at hholds'
    obtain ⟨x, next, next', hbefore, hafter, hnext⟩ := hholds.keeps_cell hholds' ha
    obtain rfl := Option.some.inj (hbefore.symm.trans hcell)
    exact ⟨next', hafter, hnext⟩

/-- The theorem at a retrieval and a store after the first store. -/
theorem Process.blocks_stay_one_store :
    ∃ before after, (start Nat).run Sha256.sha256 bumpAllocator 4 [.store (ascii "a")] =
        some before ∧
      (start Nat).run Sha256.sha256 bumpAllocator 4
        ([.store (ascii "a")] ++ [.retrieve, .store (ascii "b")]) = some after ∧
      ∀ a cell, before.memory.heap a = some cell →
        ∃ next, after.memory.heap a = some ⟨cell.content, next⟩ ∧
          ∀ b, cell.next = some b → next = some b :=
  blocks_stay Sha256.sha256 bumpAllocator _ _ (by decide) (by simp)

end

end ShardedLedger.Server
