import IOContext.Closing
import IOContext.Worker.Receives

/-!
# The bytes that a connection receives

Completions are dispatched by their tags. As long as no number is accepted that a tag cannot carry or that the table
still has an entry for, every completion of a receive is handled for its own connection (`branch_cases`).

- A connection has at most one receive outstanding, for which it is armed, and what it has got are the bytes of its
  positive completions (`Fed`).
- If moreover the worker is still in multishot mode whenever a multishot receive delivers bytes, then the parser of a
  connection is fed exactly the bytes received, in order, until it errs (`fed_eq_received`).
-/

namespace IOContext

/-- An accept returns a number that a tag can carry and that the table has no entry for; a multishot receive delivers
bytes while the worker is in multishot mode. -/
def Op.InMode (w : Worker) (cqe : Cqe) : Op → Prop
  | .accept _ | .multishotAccept _ => cqe.res < 0x20000000 ∧ w.table cqe.res = none
  | .recvMultishot _ => w.useMsRecv = true
  | _ => True

instance (w : Worker) (cqe : Cqe) : DecidablePred (Op.InMode w cqe)
  | .accept _ | .multishotAccept _ => inferInstanceAs (Decidable (_ ∧ _))
  | .recvMultishot _ => inferInstanceAs (Decidable (_ = _))
  | .provideBuffers _ _ | .recv _ _ | .close _ | .pollAdd _ | .sendmsg _ _ | .msgRing _ _ => isTrue trivial

namespace Worker

/-- The numbers in the table can be carried by a tag, and operations are on the numbers under which the table has their
connections. -/
structure Entries (w : Worker) : Prop where
  range : ∀ fd c, w.table fd = some c → 0 ≤ fd ∧ fd < 0x20000000
  entry : ∀ e ∈ sqesOf w.trace, ∀ c, e.owner = some c → ∀ fd, e.op.target = some fd → w.table fd = some c

variable {L : Effect → Prop} {c q : Ptr} {fd : Fd} {w w' : Worker}

theorem Entries.prims (h : w.Entries) (hc : w.table fd = some c) (hp : Prims L c fd w w') : w'.Entries := by
  have htable := hp.frame.table
  obtain ⟨evs, htrace, hev⟩ := hp.trace
  refine ⟨by rw [htable]; exact h.range, fun e he q hq fd' hfd => ?_⟩
  rw [htable]
  rw [htrace, sqesOf_append, List.mem_append] at he
  rcases he with he | he
  · exact h.entry e he q hq fd' hfd
  · have hfor := (hev _ (mem_sqesOf.mp he)).2
    rw [hq] at hfor
    generalize e.op = op at hfor hfd
    cases hfor with
    | own ht =>
      rw [ht] at hfd
      cases hfd
      exact hc

theorem Entries.listen (h : w.Entries) (hp : ∀ c fd, Prims Effect.Listens c fd w w') :
    w'.Entries := by
  obtain ⟨htable, -⟩ := prims_other hp
  obtain ⟨evs, htrace, hev⟩ := listen_submits hp
  refine ⟨by rw [htable]; exact h.range, fun e he q hq fd' hfd => ?_⟩
  rw [htable]
  rw [htrace, sqesOf_append, List.mem_append] at he
  rcases he with he | he
  · exact h.entry e he q hq fd' hfd
  · rw [(hev e he).2] at hq
    cases hq

theorem Entries.addConn (h : w.Entries) {cfd : Fd} (hpos : 0 < cfd) (hlt : cfd < 0x20000000)
    (hnone : w.table cfd = none) : (w.addConn cfd).2.Entries := by
  have hne : ∀ fd c, w.table fd = some c → fd ≠ cfd := fun fd c hc heq => by
    rw [heq, hnone] at hc
    cases hc
  have htable : (w.addConn cfd).2.table = Function.update w.table cfd (some w.nextPtr) := by
    rw [addConn_table, if_pos hnone]
  refine ⟨fun fd c hc => ?_, fun e he c hc fd hfd => ?_⟩
  · rw [htable] at hc
    by_cases hfd : fd = cfd
    · exact hfd ▸ ⟨Int32.le_of_lt hpos, hlt⟩
    · rw [Function.update_of_ne hfd] at hc
      exact h.range fd c hc
  · have hold := h.entry e he c hc fd hfd
    rw [htable, Function.update_of_ne (hne fd c hold)]
    exact hold

/-- Submissions alone change nothing of what has been got. -/
theorem listen_got (hp : ∀ c fd, Prims Effect.Listens c fd w w') (q : Ptr) : w'.got q = w.got q :=
  ((hp 0 0).mono Effect.Listens.keepsRxq).got q

theorem listen_recvs (hp : ∀ c fd, Prims Effect.Listens c fd w w') (q : Ptr) :
    ∃ evs, w'.trace = w.trace ++ evs ∧ recvsOf q evs = [] := by
  obtain ⟨evs, htrace, hev⟩ := listen_submits hp
  exact ⟨evs, htrace, List.filter_eq_nil_iff.mpr fun e he => by simp [(hev e he).2]⟩

theorem Armed.listen {op : Op} (h : w.Armed c op) (hp : ∀ c fd, Prims Effect.Listens c fd w w') :
    w'.Armed c op := h.congr (hp 0 0).frame.haveBufPool (by rw [(prims_other hp).2])

theorem Rearms.listen {w'' : Worker} (h : Rearms c w w')
    (hp : ∀ c fd, Prims Effect.Listens c fd w' w'') : Rearms c w w'' := by
  obtain ⟨evs, htrace, h⟩ := h
  obtain ⟨evs', htrace', hnone⟩ := listen_recvs hp c
  refine ⟨evs ++ evs', by rw [htrace', htrace, List.append_assoc], ?_⟩
  rw [recvsOf_append, hnone, List.append_nil]
  exact h.imp id fun ⟨e, he, harmed⟩ => ⟨e, he, harmed.listen hp⟩

theorem startUp_got {listenFd : Fd} {cfg : WorkerConfig} {routes : Routes} {allocated : Bool} {env : Env}
    (h : startUp listenFd cfg routes allocated env = some w) (q : Ptr) : w.got q = [] := by
  obtain ⟨-, hheap, hev⟩ := startUp_new h
  have hfed : fed q w.trace = [] := List.flatMap_eq_nil_iff.mpr fun ev hmem => by
    obtain ⟨e, rfl, -⟩ := hev ev hmem
    rfl
  simp [got, hfed, hheap]

end Worker

namespace Sys

open Worker

variable {ok : Sys → Action → Prop} {s s' : Sys} {w w' : Worker} {p : Pending} {cqe : Cqe}

/-- What a completion does that is dispatched by its tag. -/
inductive Branch (p : Pending) (cqe : Cqe) (w w' : Worker) : Prop
  | recv {c : Ptr} {fd : Fd} (howner : p.sqe.owner = some c) (hop : p.sqe.op.Receives) (hat : w.At c fd)
      (h : w.handleRecv c fd cqe = some w')
  | conn {c : Ptr} {fd : Fd} (hop : ¬p.sqe.op.Receives) (hat : w.At c fd) (h : Prims Effect.QuietRx c fd w w')
  | same (hop : ¬p.sqe.op.Receives) (h : w' = w)
  | accept (hop : ¬p.sqe.op.Receives) (hacc : 0 < cqe.res → p.sqe.op.Accepts) (h : w.handleAccept cqe = some w')

/-- The branches of the operations that are no receives. -/
theorem Branch.of_handle {fd : Fd} {kind : Workflow} (hok : w.Ok) (hop : ¬p.sqe.op.Receives) (hkind : kind.code < 8)
    (hrecv : kind = .recv → ∀ c, w.table fd = some c → cqe.res ≤ 0 ∧ (cqe.res = 0 ∨ (w.heap c).closing = true))
    (hacc : kind = .accept → 0 < cqe.res → p.sqe.op.Accepts) (h : w.handle fd kind cqe = some w') :
    Branch p cqe w w' := by
  obtain ⟨c, hc, h⟩ | rfl | ⟨hk, h⟩ | ⟨rfl, -⟩ := handle_cases h
  · exact .conn hop (hok.at hc) (handleConn_quietRx (hok.at hc) (fun hk => hrecv hk c hc) h)
  · exact .same hop rfl
  · exact .accept hop (hacc hk) h
  · exact absurd hkind (by decide)

/-- The connection that an operation on a number was submitted for. -/
theorem pending_entry (hr : Reachable .tagged ok s) (he : s.w.Entries) (hp : p ∈ s.pending) (ho : p.sqe.op.Owned)
    {fd : Fd} (ht : p.sqe.op.target = some fd) :
    ∃ c, p.sqe.owner = some c ∧ s.w.table fd = some c ∧ 0 ≤ fd ∧ fd < 0x20000000 := by
  have hmem := pending_mem hr p hp
  obtain ⟨c, fd', hfor⟩ := submitted_for hr p.sqe hmem
  cases hown : p.sqe.owner with
  | none =>
    rw [hown] at hfor
    generalize p.sqe.op = op at hfor ho
    cases hfor with
    | buffer => exact ho.elim
    | listen ha => cases op <;> first | exact ho.elim | exact ha.elim
  | some q =>
    have hentry := he.entry p.sqe hmem q hown fd ht
    exact ⟨q, rfl, hentry, he.range fd q hentry⟩

/-- Every completion of a receive is handled for the connection that it was submitted for. -/
theorem branch_cases {data : Bytes} {env : Env} (hr : Reachable .tagged ok s) (he : s.w.Entries) (hp : p ∈ s.pending)
    (hadm : s.Admissible p cqe data) (hw : handled .tagged (s.arrive p cqe data env) p cqe = some w') :
    Branch p cqe (s.arrive p cqe data env) w' := by
  have hok : (s.arrive p cqe data env).Ok := (table_ok hr).move (arrive_move ..)
  have hlt := unpack_kind_lt p.tag
  have htag : ∀ u, p.sqe.op.tag = some u → p.tag = u := fun u hu => pending_tag hr hp hu
  have hentry := pending_entry hr he hp
  unfold handled Dispatch.read at hw
  dsimp only at hw
  unfold Admissible at hadm
  -- receives are read back; of the others, only closes and the completions of tasks can be read as receives
  cases hop : p.sqe.op with
  | recvMultishot fd | recv fd hold =>
    rw [hop] at htag hentry
    obtain ⟨c, hown, hc, h0, hfd⟩ := hentry trivial rfl
    rw [htag _ rfl, packUd_eq, unpack_pack 0 h0 (by decide) hfd (by decide)] at hw
    rw [← arrive_table s p cqe data env] at hc
    simp only [handle, hc] at hw
    exact .recv hown (by rw [hop]; trivial) (hok.at hc) hw
  | close fd =>
    rw [hop] at htag hentry hadm
    obtain ⟨c, hown, hc, h0, hfd⟩ := hentry trivial rfl
    rw [htag _ rfl, packUd_closed, unpack_pack 1 h0 (by decide) hfd (by decide)] at hw
    refine .of_handle hok (by rw [hop]; exact id) (show Workflow.recv.code < 8 by decide)
      (fun _ q hq => ⟨hadm.2, .inr ?_⟩) (fun h => by cases h) hw
    rw [arrive_table, hc] at hq
    cases hq
    rw [arrive_heap]
    exact (close_ok hr).closing c ⟨p.sqe, pending_mem hr p hp, hown, by rw [hop]; trivial⟩
  | msgRing fd kind =>
    rw [hop] at hadm
    have hres : cqe.res = 0 := hadm
    refine .of_handle hok (by rw [hop]; exact id) hlt (fun _ _ _ => ⟨by rw [hres]; decide, .inl hres⟩)
      (fun _ h => ?_) hw
    rw [hres] at h
    exact absurd h (by decide)
  | accept fd | multishotAccept fd =>
    rw [hop] at htag
    rw [htag _ rfl] at hw hlt
    refine .of_handle hok (by rw [hop]; exact id) hlt (fun hk => ?_) (fun _ _ => by rw [hop]; trivial) hw
    rw [packUd_eq, unpack_kind] at hk
    cases hk
  | provideBuffers addr bid =>
    rw [hop] at htag
    rw [htag _ rfl] at hw hlt
    refine .of_handle hok (by rw [hop]; exact id) hlt (fun hk => ?_) (fun hk => ?_) hw <;>
    · rw [unpack_kind] at hk
      cases hk
  | pollAdd fd | sendmsg fd iov =>
    rw [hop] at htag
    rw [htag _ rfl] at hw hlt
    refine .of_handle hok (by rw [hop]; exact id) hlt (fun hk => ?_) (fun hk => ?_) hw <;>
    · rw [packUd_eq, unpack_kind] at hk
      cases hk

/-! ## The condition -/

/-- Whenever an operation succeeds, it does so in this mode. -/
def InMode (s : Sys) : Action → Prop
  | .complete i cqe _ _ => ∀ p ∈ s.pending[i]?, 0 < cqe.res → p.sqe.op.InMode s.w cqe
  | _ => True

instance (s : Sys) (a : Action) : Decidable (s.InMode a) :=
  match a with
  | .complete i cqe _ _ => inferInstanceAs (Decidable (∀ p ∈ s.pending[i]?, 0 < cqe.res → p.sqe.op.InMode s.w cqe))
  | .executeClose _ | .endBatch => isTrue trivial

theorem InMode.accept {i : Nat} {data : Bytes} {env : Env} (h : s.InMode (.complete i cqe data env))
    (hp : s.pending[i]? = some p) (hacc : p.sqe.op.Accepts) (hres : 0 < cqe.res) :
    cqe.res < 0x20000000 ∧ s.w.table cqe.res = none := by
  have h := h p hp hres
  generalize p.sqe.op = op at h hacc
  cases op <;> first | exact h | exact hacc.elim

theorem arrive_entries (h : s.w.Entries) (p : Pending) (cqe : Cqe) (data : Bytes) (env : Env) :
    (s.arrive p cqe data env).Entries := by
  refine ⟨?_, ?_⟩
  · rw [arrive_table]
    exact h.range
  · rw [arrive_table, arrive_trace]
    exact h.entry

theorem entries (h : Reachable .tagged InMode s) : s.w.Entries := by
  refine Reach.invariant_of (K := Reachable .tagged InMode) (I := fun s => s.w.Entries) (fun _ => id) (fun s h => ?_)
    (fun s a s' hr he hmode h => ?_) s h
  · obtain ⟨_, _, _, _, _, h, -, -⟩ := h
    refine ⟨fun fd c hc => ?_, fun e hmem c hc => ?_⟩
    · rw [(startUp_new h).1] at hc
      cases hc
    · rw [(startUp_submits h e hmem).2] at hc
      cases hc
  · cases (step_cases h).2 with
    | executeClose | endBatch => exact ⟨he.range, he.entry⟩
    | complete hp hadm hw =>
      rename_i i cqe data env p w'
      have he₀ := arrive_entries he p cqe data env
      cases branch_cases hr he (List.mem_of_getElem? hp) hadm hw with
      | recv _ _ hat h => exact he₀.prims hat.table (handleRecv_prims hat h)
      | conn _ hat h => exact he₀.prims hat.table h
      | same _ h => exact h ▸ he₀
      | accept _ hacc h =>
        obtain ⟨-, h⟩ | ⟨hres, b, w₁, hrecv, h⟩ := handleAccept_cases h
        · exact he₀.listen h
        · obtain ⟨hlt, hnone⟩ := hmode.accept hp (hacc hres) hres
          rw [← arrive_table s p cqe data env] at hnone
          have hnew := he₀.addConn hres hlt hnone
          have htable : ((s.arrive p cqe data env).addConn cqe.res).2.table cqe.res =
              some (s.arrive p cqe data env).nextPtr := by
            rw [addConn_table, if_pos hnone, Function.update_self]
          exact (hnew.prims htable (startRecv_prims (by rw [addConn_obj]) hrecv)).listen h

/-- Objects that have not been created are as new. -/
theorem unused (h : Reachable .tagged ok s) : ∀ c, s.w.nextPtr ≤ c → s.w.heap c = {} := by
  refine worker_invariant (I := fun w => ∀ c, w.nextPtr ≤ c → w.heap c = {}) (fun _ _ _ _ _ _ => rfl)
    (fun w w' hok hI hm c hc => ?_) h
  cases hm with
  | conn hat h =>
    rw [h.frame.nextPtr] at hc
    rw [h.frame.heap c (Nat.ne_of_gt (Nat.lt_of_lt_of_le (hok.lt _ _ hat.table) hc)), hI c hc]
  | listen h =>
    rw [(h 0 0).frame.nextPtr] at hc
    rw [(prims_other h).2, hI c hc]
  | accept cfd h =>
    rw [h.frame.nextPtr] at hc
    have hne : c ≠ w.nextPtr := Nat.ne_of_gt hc
    rw [h.frame.heap c hne, addConn_heap_ne w cfd hne, hI c (Nat.le_of_succ_le hc)]
  | erase | outside => exact hI c hc

/-! ## Outstanding receives -/

/-- The completion is owed to a receive of `c`. -/
def OfRecv (c : Ptr) (p : Pending) : Bool := decide (p.sqe.owner = some c ∧ p.sqe.op.Receives)

theorem filter_owed (c : Ptr) (evs : List Event) :
    (evs.flatMap Event.owed).filter (OfRecv c) = (recvsOf c evs).map fun e => { sqe := e } := by
  induction evs with
  | nil => rfl
  | cons ev evs ih =>
    rw [List.flatMap_cons, List.filter_append, ih, ← List.singleton_append (l := evs), recvsOf_append, List.map_append]
    congr 1
    cases ev with
    | sqe e =>
      cases hop : e.op <;> simp [Event.owed, hop, recvsOf, sqesOf, OfRecv, List.filter_cons, Op.Receives] <;>
        split <;> rfl
    | segment | enqueue | invoke => rfl

/-- The receives of `c` that are outstanding after a completion. -/
theorem after_recvs {i : Nat} {data : Bytes} {evs : List Event} (c : Ptr) (htrace : w'.trace = s.w.trace ++ evs) :
    (s.after i p cqe data w').pending.filter (OfRecv c) =
      (if goesOn p cqe then s.pending else s.pending.eraseIdx i).filter (OfRecv c) ++
        (recvsOf c evs).map fun e => { sqe := e } := by
  rw [after, List.filter_append, owedSince, htrace, List.drop_left, filter_owed]

/-- What a connection has got are the bytes received, and at most one receive is outstanding. -/
structure Fed (s : Sys) (c : Ptr) : Prop where
  got : s.w.got c = s.received c
  drained : s.w.Drained c
  armed : s.pending.filter (OfRecv c) = [] ∨ ∃ p, s.pending.filter (OfRecv c) = [p] ∧ s.w.Armed c p.sqe.op

variable {c q : Ptr} {i : Nat} {data : Bytes} {env : Env}

theorem receivedAfter_other (hq : OfRecv q p = false) : s.receivedAfter p cqe data q = s.received q := by
  unfold receivedAfter
  cases hop : p.sqe.op with
  | recvMultishot | recv =>
    cases hown : p.sqe.owner with
    | none => rfl
    | some c =>
      dsimp only
      split
      · exact Function.update_of_ne (by simpa [OfRecv, hop, hown, Op.Receives, eq_comm] using hq) ..
      · rfl
  | _ => rfl

/-- A completion that is not of a receive of `q` leaves those outstanding. -/
theorem rest_recvs (hp : s.pending[i]? = some p) (hq : OfRecv q p = false) :
    (if goesOn p cqe then s.pending else s.pending.eraseIdx i).filter (OfRecv q) = s.pending.filter (OfRecv q) := by
  split
  · rfl
  · obtain ⟨l₁, l₂, hl, he⟩ := filter_eraseIdx (f := OfRecv q) hp
    rw [hl, he]
    simp [hq]

/-- A connection of which no receive has completed. -/
theorem Fed.other {evs : List Event} (h : s.Fed q) (hp : s.pending[i]? = some p) (hq : OfRecv q p = false)
    (htrace : w'.trace = s.w.trace ++ evs) (hnone : recvsOf q evs = []) (hgot : w'.got q = s.w.got q)
    (hd : s.w.Drained q → w'.Drained q) (harm : ∀ op, s.w.Armed q op → w'.Armed q op) :
    (s.after i p cqe data w').Fed q := by
  refine ⟨hgot.trans (h.got.trans (receivedAfter_other hq).symm), hd h.drained, ?_⟩
  rw [after_recvs q htrace, hnone, rest_recvs hp hq, List.map_nil, List.append_nil]
  exact h.armed.imp id fun ⟨p', hp', ha⟩ => ⟨p', hp', harm _ ha⟩

/-- A connection without an outstanding receive. -/
theorem Fed.rearm (hgot : w'.got q = s.receivedAfter p cqe data q) (hd : w'.Drained q)
    (hnone : (if goesOn p cqe then s.pending else s.pending.eraseIdx i).filter (OfRecv q) = [])
    (htrace : w.trace = s.w.trace) (h : Rearms q w w') : (s.after i p cqe data w').Fed q := by
  refine ⟨hgot, hd, ?_⟩
  obtain ⟨evs, htrace', h⟩ := h
  rw [htrace] at htrace'
  rw [after_recvs q htrace', hnone, List.nil_append]
  rcases h with h | ⟨e, h, ha⟩
  · exact .inl (by rw [h]; rfl)
  · exact .inr ⟨{ sqe := e }, by rw [h]; rfl, ha⟩

/-- The receive that completes is the only one that is outstanding for its connection. -/
theorem Fed.only (h : s.Fed c) (hp : s.pending[i]? = some p) (hq : OfRecv c p = true) :
    s.pending.filter (OfRecv c) = [p] ∧ s.w.Armed c p.sqe.op ∧ (s.pending.eraseIdx i).filter (OfRecv c) = [] := by
  rcases h.armed with h | ⟨p', h, ha⟩
  · have hmem : p ∈ s.pending.filter (OfRecv c) := List.mem_filter.mpr ⟨List.mem_of_getElem? hp, hq⟩
    rw [h] at hmem
    cases hmem
  · obtain ⟨rfl, he⟩ := filter_eraseIdx_only h hp hq
    exact ⟨h, ha, he⟩

theorem arrive_got (s : Sys) (p : Pending) (cqe : Cqe) (data : Bytes) (env : Env) (q : Ptr) :
    (s.arrive p cqe data env).got q = s.w.got q := by
  unfold got
  rw [arrive_trace, arrive_heap]

theorem arrive_drained (s : Sys) (p : Pending) (cqe : Cqe) (data : Bytes) (env : Env) (q : Ptr) :
    (s.arrive p cqe data env).Drained q = s.w.Drained q := by
  unfold Drained
  rw [arrive_heap]

theorem arrive_haveBufPool (s : Sys) (p : Pending) (cqe : Cqe) (data : Bytes) (env : Env) :
    (s.arrive p cqe data env).haveBufPool = s.w.haveBufPool := by
  unfold arrive fillBuffer
  split <;> rfl

theorem arrive_useMsRecv (s : Sys) (p : Pending) (cqe : Cqe) (data : Bytes) (env : Env) :
    (s.arrive p cqe data env).useMsRecv = s.w.useMsRecv := by
  unfold arrive fillBuffer
  split <;> rfl

theorem arrive_armed {op : Op} (h : s.w.Armed q op) : (s.arrive p cqe data env).Armed q op :=
  h.congr (arrive_haveBufPool ..) (by rw [arrive_heap])

theorem receivedAfter_self (hown : p.sqe.owner = some c) (hop : p.sqe.op.Receives) :
    s.receivedAfter p cqe data c = s.received c ++ if 0 < cqe.res then data else [] := by
  unfold receivedAfter
  cases h : p.sqe.op <;> rw [h] at hop <;> first
    | exact hop.elim
    | rw [hown]
      dsimp only
      split <;> simp

/-- A receive that has failed is over. -/
theorem goesOn_failed (hop : p.sqe.op.Receives) (hadm : s.Admissible p cqe data) (hres : cqe.res ≤ 0) :
    goesOn p cqe = false := by
  unfold goesOn
  unfold Admissible at hadm
  cases hop' : p.sqe.op <;> rw [hop'] at hadm hop <;> first
    | rfl
    | exact hop.elim
    | exact Bool.eq_false_iff.mpr fun hmore => absurd (hadm.1 hmore) (Int32.not_lt.mpr hres)

/-- The connection of which a receive completes. -/
theorem Fed.recv {fd : Fd} (h : s.Fed c) (hp : s.pending[i]? = some p) (hown : p.sqe.owner = some c)
    (hop : p.sqe.op.Receives) (hadm : s.Admissible p cqe data) (hmode : s.InMode (.complete i cqe data env))
    (hat : (s.arrive p cqe data env).At c fd) (hw : (s.arrive p cqe data env).handleRecv c fd cqe = some w') :
    (s.after i p cqe data w').Fed c := by
  obtain ⟨hone, harmed, herase⟩ := h.only hp (by simp [OfRecv, hown, hop])
  have hd : (s.arrive p cqe data env).Drained c := by
    rw [arrive_drained]
    exact h.drained
  have hreceived : s.receivedAfter p cqe data c = _ := receivedAfter_self hown hop
  have htrace := arrive_trace s p cqe data env
  -- what the branch has got is what the kernel has delivered
  have hgot : ∀ bytes, Receives c bytes (s.arrive p cqe data env) w' → bytes = (if 0 < cqe.res then data else []) →
      w'.got c = s.receivedAfter p cqe data c := fun bytes hrec hbytes => by
    rw [hrec.got, arrive_got, h.got, hreceived, hbytes]
  by_cases hres : cqe.res ≤ 0
  · have hgo := goesOn_failed hop hadm hres
    rw [handleRecv, if_pos hres] at hw
    have hrec := recvFailed_receives hat hd hw
    exact .rearm (hgot _ hrec (if_neg (Int32.not_lt.mpr hres)).symm) hrec.drained (by rw [hgo]; exact herase) htrace
      hrec.rearms
  · have hpos : 0 < cqe.res := Int32.not_le.mp hres
    unfold InMode at hmode
    have hmode := hmode p hp hpos
    have hkeep := (handleRecv_prims hat hw).frame
    rw [handleRecv, if_neg hres] at hw
    unfold Admissible at hadm
    cases hop' : p.sqe.op with
    | recvMultishot fd' =>
      rw [hop'] at hadm hmode harmed
      obtain ⟨hbuf, hlen, -⟩ := hadm.2 hpos
      obtain ⟨bid, hbid⟩ := Option.ne_none_iff_exists'.mp hbuf
      have hpool : s.w.haveBufPool = true := harmed
      rw [arrive_useMsRecv, arrive_haveBufPool, hmode, hpool] at hw
      simp only [Bool.and_self, if_true, hbid] at hw
      obtain ⟨hrec, hmore⟩ := recvProvided_receives hat hd hw
      have hdata : ((s.arrive p cqe data env).bufPool bid).take cqe.res.toInt.toNat = data := by
        simp [arrive, fillBuffer, hop', hbid, ← hlen]
      have hgot' := hgot _ hrec (by rw [hdata, if_pos hpos])
      cases hm : cqe.more with
      | false => exact .rearm hgot' hrec.drained (by simp [goesOn, hop', hm, herase]) htrace hrec.rearms
      | true =>
        obtain ⟨evs, htrace', hnone⟩ := (hmore hm).recvsOf (fun _ => id) c
        rw [htrace] at htrace'
        refine ⟨hgot', hrec.drained, .inr ⟨p, ?_, ?_⟩⟩
        · rw [after_recvs c htrace', hnone]
          simp [goesOn, hop', hm, hone]
        · rw [hop']
          exact hkeep.haveBufPool.trans ((arrive_haveBufPool ..).trans hpool)
    | recv fd' hold =>
      rw [hop'] at hadm harmed
      obtain ⟨hbuf, hlen⟩ := hadm
      have hhold : ((s.arrive p cqe data env).heap c).rxHold = some hold := by
        rw [arrive_heap]
        exact harmed
      have hw : (s.arrive p cqe data env).recvHold c cqe = some w' := by
        rw [hbuf] at hw
        split at hw <;> exact hw
      have hrec := recvHold_receives hat hd hhold hw
      have hdata : ((s.arrive p cqe data env).holds hold).take cqe.res.toInt.toNat = data := by
        simp [arrive, fillBuffer, hop', ← (hlen hpos).1]
      exact .rearm (hgot _ hrec (by rw [hdata, if_pos hpos])) hrec.drained (by simp [goesOn, hop', herase]) htrace
        hrec.rearms
    | _ =>
      rw [hop'] at hop
      exact hop.elim

/-- A step that is taken for one connection only. -/
theorem Fed.of_prims {L : Effect → Prop} {fd : Fd} (h : s.Fed q) (hp : s.pending[i]? = some p)
    (hq : OfRecv q p = false) (hqc : q ≠ c) (hw : Prims L c fd (s.arrive p cqe data env) w') :
    (s.after i p cqe data w').Fed q := by
  obtain ⟨evs, htrace, hnone⟩ := hw.recvsOf_ne hqc
  have hother := hw.frame
  have hheap : w'.heap q = s.w.heap q := by rw [hother.heap q hqc, arrive_heap]
  refine h.other hp hq (by rw [htrace, arrive_trace]) hnone ?_ (fun hd => by rwa [Drained, hheap]) (fun op ha => ?_)
  · obtain ⟨evs', htrace', hev⟩ := hw.trace
    have hfed : fed q evs' = [] := List.flatMap_eq_nil_iff.mpr fun e he => by
      have hallowed := hev e he
      cases e with
      | segment q' seg => exact if_neg fun heq => hqc (heq.symm.trans hallowed.2)
      | sqe | enqueue | invoke => rfl
    unfold Worker.got
    rw [htrace', arrive_trace, fed_append, hfed, List.append_nil, hheap]
  · exact ha.congr (by rw [hother.haveBufPool, arrive_haveBufPool]) (by rw [hheap])

/-- A step in which no receive completes. -/
theorem Fed.quiet {fd : Fd} (h : s.Fed q) (hp : s.pending[i]? = some p) (hop : ¬p.sqe.op.Receives)
    (hw : Prims Effect.QuietRx c fd (s.arrive p cqe data env) w') : (s.after i p cqe data w').Fed q := by
  have hq : OfRecv q p = false := by simp [OfRecv, hop]
  by_cases hqc : q = c
  · subst hqc
    obtain ⟨evs, htrace, hnone⟩ := hw.recvsOf (fun _ => id) q
    have hkeep := hw.mono Effect.QuietRx.keepsRxq
    exact h.other hp hq (by rw [htrace, arrive_trace]) hnone (by rw [hkeep.got, arrive_got])
      (fun hd => hkeep.drained (by rwa [arrive_drained])) fun op ha => (arrive_armed ha).prims hw
  · exact h.of_prims hp hq hqc hw

/-- A completion of the listener. -/
theorem Fed.listen (h : s.Fed q) (hp : s.pending[i]? = some p) (hq : OfRecv q p = false)
    (hw : ∀ c fd, Prims Effect.Listens c fd (s.arrive p cqe data env) w') :
    (s.after i p cqe data w').Fed q := by
  obtain ⟨evs, htrace, hnone⟩ := listen_recvs hw q
  refine h.other hp hq (by rw [htrace, arrive_trace]) hnone (by rw [listen_got hw, arrive_got]) (fun hd => ?_)
    fun op ha => (arrive_armed ha).listen hw
  rw [Drained, (prims_other hw).2]
  rwa [← arrive_drained s p cqe data env] at hd

/-- Nothing has arrived for an object that has not been created, and nothing is owed to it. -/
theorem Fed.new (hr : Reachable .tagged ok s) (h : s.Fed q) (hq : s.w.nextPtr ≤ q) :
    s.received q = fed q s.w.trace ∧ s.pending.filter (OfRecv q) = [] := by
  refine ⟨?_, List.filter_eq_nil_iff.mpr fun p hp => ?_⟩
  · rw [← h.got]
    unfold Worker.got
    rw [unused hr q hq]
    simp
  · simp only [OfRecv, decide_eq_true_eq, not_and]
    intro hown
    exact absurd ((close_ok hr).owners p.sqe (pending_mem hr p hp) q hown) (Nat.not_lt.mpr hq)

/-- An accept that succeeds: the connection that is added gets its first receive. -/
theorem Fed.accept {b : Bool} {w₁ : Worker} (hr : Reachable .tagged ok s) (h : s.Fed q)
    (hp : s.pending[i]? = some p) (hq : OfRecv q p = false)
    (hrecv : ((s.arrive p cqe data env).addConn cqe.res).2.startRecv (s.arrive p cqe data env).nextPtr = some (b, w₁))
    (hw : ∀ c fd, Prims Effect.Listens c fd w₁ w') : (s.after i p cqe data w').Fed q := by
  have hprims : Prims Effect.Recvs _ cqe.res _ w₁ := startRecv_prims (by rw [addConn_obj]) hrecv
  have hnext := arrive_nextPtr s p cqe data env
  have htrace : ((s.arrive p cqe data env).addConn cqe.res).2.trace = s.w.trace := arrive_trace s p cqe data env
  by_cases hqn : q = (s.arrive p cqe data env).nextPtr
  · obtain ⟨hreceived, hnone⟩ := h.new hr (by rw [hqn, hnext])
    have hkeep := hprims.mono Effect.Recvs.keepsRxq
    subst hqn
    refine .rearm (q := (s.arrive p cqe data env).nextPtr) ?_ ?_ ?_ htrace ((startRecv_rearms hrecv).listen hw)
    · rw [listen_got hw, hkeep.got, receivedAfter_other hq, hreceived]
      unfold Worker.got
      rw [htrace, addConn_obj]
      simp
    · rw [Drained, (prims_other hw).2]
      exact hkeep.drained (.inr (by rw [addConn_obj]))
    · rw [rest_recvs hp hq, hnone]
  · have hheap : w₁.heap q = s.w.heap q := by
      rw [hprims.frame.heap q hqn, addConn_heap_ne _ _ hqn, arrive_heap]
    have hheap' : w'.heap q = s.w.heap q := by rw [(prims_other hw).2, hheap]
    obtain ⟨evs, htrace₁, hnone₁⟩ := hprims.recvsOf_ne hqn
    obtain ⟨evs', htrace', hnone'⟩ := listen_recvs hw q
    have hnone : recvsOf q (evs ++ evs') = [] := by rw [recvsOf_append, hnone₁, hnone']; rfl
    refine h.other hp hq (by rw [htrace', htrace₁, htrace, List.append_assoc]) hnone ?_
      (fun hd => by rwa [Drained, hheap']) fun op ha => ?_
    · rw [listen_got hw, (hprims.mono Effect.Recvs.keepsRxq).got]
      unfold Worker.got
      rw [htrace, addConn_heap_ne _ _ hqn, arrive_heap]
    · refine ha.congr ?_ (by rw [hheap'])
      rw [(hw 0 0).frame.haveBufPool, hprims.frame.haveBufPool]
      exact arrive_haveBufPool s p cqe data env

/-- In every run under the condition, every connection has got the bytes received for it. -/
theorem all_fed (h : Reachable .tagged InMode s) : ∀ q, s.Fed q := by
  refine Reach.invariant_of (K := Reachable .tagged InMode) (I := fun s => ∀ q, s.Fed q) (fun _ => id) (fun s h q => ?_)
    (fun s a s' hr hfed hmode h => ?_) s h
  · obtain ⟨_, _, _, _, _, h, hpend, hrec⟩ := h
    obtain ⟨-, hheap, -⟩ := startUp_new h
    have hgot := startUp_got h
    refine ⟨by rw [hgot, hrec], .inr (by rw [hheap]), .inl ?_⟩
    rw [hpend, filter_owed, List.map_eq_nil_iff]
    exact List.filter_eq_nil_iff.mpr fun e he => by simp [(startUp_submits h e he).2]
  · cases (step_cases h).2 with
    | executeClose hp hop hex =>
      rename_i i p fd
      refine fun q => ⟨(hfed q).got, (hfed q).drained, ?_⟩
      have hnot : ∀ b : Pending, b.sqe = p.sqe → OfRecv q b = false := fun b hb => by
        simp [OfRecv, hb, hop, Op.Receives]
      dsimp only
      rw [filter_set hp (hnot p rfl) (by exact hnot _ rfl)]
      exact (hfed q).armed
    | endBatch => exact fun q => ⟨(hfed q).got, (hfed q).drained, (hfed q).armed⟩
    | complete hp hadm hw =>
      rename_i i cqe data env p w'
      intro q
      cases branch_cases hr (entries hr) (List.mem_of_getElem? hp) hadm hw with
      | @recv c fd hown hop hat h =>
        by_cases hqc : q = c
        · subst hqc
          exact (hfed q).recv hp hown hop hadm hmode hat h
        · exact (hfed q).of_prims hp (by simp [OfRecv, hown, Ne.symm hqc]) hqc (handleRecv_prims hat h)
      | conn hop hat h => exact (hfed q).quiet hp hop h
      | same hop h =>
        have hsame : Prims Effect.QuietRx q 0 (s.arrive p cqe data env) w' := by
          rw [h]
        exact (hfed q).quiet hp hop hsame
      | accept hop hacc h =>
        have hq : OfRecv q p = false := by simp [OfRecv, hop]
        obtain ⟨-, hlisten⟩ | ⟨-, b, w₁, hrecv, hlisten⟩ := handleAccept_cases h
        · exact (hfed q).listen hp hq hlisten
        · exact (hfed q).accept hr hp hq hrecv hlisten

/-! ## The bytes received -/

/-- In every run under the condition, what the parser of a connection has been fed are the bytes of its positive
completions, in order; once it has erred, they are the first of these. -/
theorem fed_eq_received (h : Reachable .tagged InMode s) (c : Ptr) :
    fed c s.w.trace <+: s.received c ∧
      ((s.w.heap c).parser.state ≠ .errorState → fed c s.w.trace = s.received c) := by
  obtain ⟨hgot, hdrained, -⟩ := all_fed h c
  unfold Worker.got at hgot
  refine ⟨⟨_, hgot⟩, fun hne => ?_⟩
  rw [hdrained.resolve_left hne] at hgot
  simpa using hgot

/-- A client sends in both modes. -/
def switched : List Action :=
  [.complete 1 { res := 5, more := true } [] { sqes := [true] },
    .complete 2 { res := 1, more := true, buffer := some 0 } (ascii "G") { sqes := [true] },
    .complete 2 { res := -22 } [] { sqes := [true] },
    .complete 3 { res := 2 } (ascii "ET") { sqes := [true] }]

theorem fed_eq_received_switched : ∃ s, withPool.bind (execAll (step .tagged) InMode switched) = some s ∧
    s.received 0 = ascii "GET" ∧ fed 0 s.w.trace <+: s.received 0 := by
  obtain ⟨s, hs, hrec⟩ := Option.map_eq_some_iff.mp (show
    (withPool.bind (execAll (step .tagged) InMode switched)).map (·.received 0) = some (ascii "GET") by decide +kernel)
  exact ⟨s, hs, hrec, (fed_eq_received (run_reachable hs) 0).1⟩

/-- A second client is connected when the first one turns multishot mode off, and then sends. -/
def turnedOff : List Action :=
  [.complete 1 { res := 5, more := true } [] { sqes := [true] },
    .complete 1 { res := 6, more := true } [] { sqes := [true] },
    .complete 2 { res := -22 } [] { sqes := [true] },
    .complete 2 { res := 1, more := true, buffer := some 0 } (ascii "G") {}]

/-- What the second client sends is dropped. -/
theorem received_not_fed : ∃ s, withPool.bind (execAll (step .tagged) (fun _ _ => True) turnedOff) = some s ∧
    Reachable .tagged (fun _ _ => True) s ∧ (s.w.heap 1).parser.state ≠ .errorState ∧ s.received 1 = ascii "G" ∧
    fed 1 s.w.trace = [] := by
  obtain ⟨s, hs, hobs⟩ := Option.map_eq_some_iff.mp (show
    (withPool.bind (execAll (step .tagged) (fun _ _ => True) turnedOff)).map (fun s =>
      (decide ((s.w.heap 1).parser.state ≠ .errorState), s.received 1, fed 1 s.w.trace)) =
      some (true, ascii "G", []) by decide +kernel)
  simp only [Prod.mk.injEq] at hobs
  exact ⟨s, hs, run_reachable hs, of_decide_eq_true hobs.1, hobs.2.1, hobs.2.2⟩

end Sys

end IOContext
