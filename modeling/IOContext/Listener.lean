import IOContext.Closing

/-!
# The listener

- Only the completion of an accept changes how the worker accepts, and what it then submits is an accept of its mode
  (`handleAccept_relistens`); it submits one unless a multishot accept that has failed still counts as armed or the
  ring has no slot (`Reposts`).
- So in every run the listener has an accept outstanding in every state, and a multishot accept whenever it believes
  so, exactly if the first accept got a slot and the last one that is outstanding never ends without another
  (`listening_iff`).
-/

namespace IOContext

namespace Worker

/-- The accept that is posted in this mode. -/
def acceptOp (w : Worker) : Op := if w.useMsAccept then .multishotAccept w.listenFd else .accept w.listenFd

/-- A completion that ends an accept is followed by another accept: it has not failed while a multishot accept counts as
armed, and the ring has a slot. An accept that succeeds has used the first outcome for its connection. -/
def Reposts (w : Worker) (cqe : Cqe) (env : Env) : Prop :=
  ¬(w.useMsAccept = true ∧ w.msAcceptArmed = true ∧ cqe.res ≤ 0 ∧ cqe.res ≠ -EINVAL ∧ cqe.res ≠ -EOPNOTSUPP) ∧
  env.sqes[if 0 < cqe.res then 1 else 0]? = some true

instance (w : Worker) (cqe : Cqe) (env : Env) : Decidable (w.Reposts cqe env) := inferInstanceAs (Decidable (_ ∧ _))

variable {L : Effect → Prop} {c : Ptr} {fd : Fd} {w w' w'' : Worker}

/-- The listener is as before, and no accept has been submitted. -/
structure SameListener (w w' : Worker) : Prop where
  listenFd : w'.listenFd = w.listenFd
  useMsAccept : w'.useMsAccept = w.useMsAccept
  msAcceptArmed : w'.msAcceptArmed = w.msAcceptArmed
  submits : ∃ evs, w'.trace = w.trace ++ evs ∧ ∀ e ∈ sqesOf evs, ¬e.op.Accepts

theorem SameListener.refl (w : Worker) : SameListener w w :=
  ⟨rfl, rfl, rfl, [], (List.append_nil _).symm, fun _ h => absurd h List.not_mem_nil⟩

theorem SameListener.trans (h : SameListener w w') (h' : SameListener w' w'') : SameListener w w'' := by
  obtain ⟨evs, htrace, hev⟩ := h.submits
  obtain ⟨evs', htrace', hev'⟩ := h'.submits
  refine ⟨h'.1.trans h.1, h'.2.trans h.2, h'.3.trans h.3, evs ++ evs', by rw [htrace', htrace, List.append_assoc], ?_⟩
  intro e he
  rw [sqesOf_append, List.mem_append] at he
  exact he.elim (hev e) (hev' e)

/-- The functions that serve a connection leave the listener alone. -/
theorem Prims.sameListener (h : Prims Effect.Serves c fd w w') : SameListener w w' := by
  refine h.lift .refl (fun _ _ _ => .trans) fun w w' h => ?_
  have hp : Prims Effect.Serves c fd w w' := .single h
  obtain ⟨evs, htrace, hev⟩ := hp.trace
  have hsubmits : ∃ evs, w'.trace = w.trace ++ evs ∧ ∀ e ∈ sqesOf evs, ¬e.op.Accepts :=
    ⟨evs, htrace, fun e he => (hev _ (mem_sqesOf.mp he)).1⟩
  cases h with
  | acceptMode hL => exact hL.elim
  | quiet | crash | change | segment | enqueue | invoke | alloc | msRecvOff | submit => exact ⟨rfl, rfl, rfl, hsubmits⟩

/-! ## Posting an accept -/

theorem postAccept_cases {b : Bool} (h : w.postAccept = some (b, w')) :
    (SameListener w w' ∧ ((w.useMsAccept = true ∧ w.msAcceptArmed = true) ∨ w.env.sqes[0]? = some false)) ∨
    (¬(w.useMsAccept = true ∧ w.msAcceptArmed = true) ∧ w.env.sqes[0]? = some true ∧ w'.listenFd = w.listenFd ∧
      w'.useMsAccept = w.useMsAccept ∧ w'.msAcceptArmed = (w.useMsAccept || w.msAcceptArmed) ∧
      ∃ e : Sqe, w'.trace = w.trace ++ [.sqe e] ∧ e.op = w.acceptOp) := by
  have hsame : ∀ sqes, SameListener w (w.withSqes sqes) := fun sqes =>
    Prims.sameListener (show Prims Effect.Serves 0 0 _ _ from withSqes_prims sqes)
  unfold postAccept at h
  unfold acceptOp
  split at h
  · rename_i hms
    split at h
    · rename_i harmed
      cases h
      exact .inl ⟨.refl _, .inl ⟨hms, harmed⟩⟩
    · rename_i harmed
      obtain ⟨⟨b', w₁⟩, hsqe, h⟩ := Option.bind_eq_some_iff.mp h
      obtain ⟨sqes, henv, rfl⟩ := getSqeOrSubmit_eq hsqe
      cases b' with
      | false =>
        cases h
        exact .inl ⟨hsame sqes, .inr (by simp [henv])⟩
      | true =>
        cases h
        refine .inr ⟨fun h => harmed h.2, by simp [henv], rfl, rfl, by rw [hms]; rfl, _, rfl, ?_⟩
        rw [if_pos hms]
        rfl
  · rename_i hms
    obtain ⟨⟨b', w₁⟩, hsqe, h⟩ := Option.bind_eq_some_iff.mp h
    obtain ⟨sqes, henv, rfl⟩ := getSqeOrSubmit_eq hsqe
    cases b' with
    | false =>
      cases h
      exact .inl ⟨hsame sqes, .inr (by simp [henv])⟩
    | true =>
      cases h
      refine .inr ⟨fun h => hms h.1, by simp [henv], rfl, rfl, ?_, _, rfl, ?_⟩
      · show w.msAcceptArmed = _
        simp [hms]
      · rw [if_neg hms]
        rfl

/-- A receive for a new connection uses one outcome. -/
theorem startRecv_outcome {b : Bool} (hnew : (w.heap c).msRecvArmed = false) (h : w.startRecv c = some (b, w')) :
    ∃ b', w.env.sqes = b' :: w'.env.sqes := by
  unfold startRecv at h
  rw [hnew] at h
  split at h
  · obtain ⟨⟨b', w₁⟩, hsqe, h⟩ := Option.bind_eq_some_iff.mp h
    obtain ⟨sqes, henv, rfl⟩ := getSqeOrSubmit_eq hsqe
    refine ⟨b', ?_⟩
    cases b' <;> cases h <;> exact henv
  · obtain ⟨⟨b', w₁⟩, hsqe, h⟩ := Option.bind_eq_some_iff.mp h
    obtain ⟨sqes, henv, rfl⟩ := getSqeOrSubmit_eq hsqe
    refine ⟨b', ?_⟩
    cases b' <;> cases h <;> exact henv

@[simp] theorem submitLater_env (b : Bool) (w : Worker) : (w.submitLater b).env = w.env := by
  unfold submitLater
  split <;> rfl

theorem submitLater_same (b : Bool) (w : Worker) : SameListener w (w.submitLater b) :=
  Prims.sameListener (show Prims Effect.Serves 0 0 _ _ from submitLater_prims b)

/-! ## The completion of an accept -/

/-- The mode is only ever turned off, a multishot accept counts as armed only while it is on, and what is posted is of
the mode that is left. -/
structure Relistens (posts : Prop) (w w' : Worker) : Prop where
  listenFd : w'.listenFd = w.listenFd
  mode : w'.useMsAccept = true → w.useMsAccept = true
  armed : (w.msAcceptArmed = true → w.useMsAccept = true) → w'.msAcceptArmed = true → w'.useMsAccept = true
  submits : ∃ evs, w'.trace = w.trace ++ evs ∧ (∀ e ∈ sqesOf evs, e.op.Accepts → e.op = w'.acceptOp) ∧
    (posts ↔ ∃ e ∈ sqesOf evs, e.op.Accepts)

theorem acceptOp_accepts (w : Worker) : w.acceptOp.Accepts := by
  unfold acceptOp
  split <;> trivial

/-- A listener that is left alone posts nothing. -/
theorem SameListener.relistens {posts : Prop} (h : SameListener w w') (hposts : ¬posts) : Relistens posts w w' := by
  obtain ⟨evs, htrace, hev⟩ := h.submits
  refine ⟨h.listenFd, fun hm => h.useMsAccept ▸ hm, fun ha hw => ?_, evs, htrace,
    fun e he hacc => absurd hacc (hev e he), fun hp => absurd hp hposts, fun ⟨e, he, hacc⟩ => absurd hacc (hev e he)⟩
  rw [h.useMsAccept]
  exact ha (h.msAcceptArmed ▸ hw)

theorem Relistens.tail {posts : Prop} (h : Relistens posts w w') (h' : SameListener w' w'') :
    Relistens posts w w'' := by
  obtain ⟨evs, htrace, hev, hposts⟩ := h.submits
  obtain ⟨evs', htrace', hev'⟩ := h'.submits
  have hop : w''.acceptOp = w'.acceptOp := by rw [acceptOp, acceptOp, h'.useMsAccept, h'.listenFd]
  refine ⟨h'.1.trans h.1, fun hm => h.mode (h'.2 ▸ hm), fun ha hw => ?_, evs ++ evs',
    by rw [htrace', htrace, List.append_assoc], ?_, ?_⟩
  · rw [h'.useMsAccept]
    exact h.armed ha (h'.msAcceptArmed ▸ hw)
  · intro e he hacc
    rw [sqesOf_append, List.mem_append] at he
    rcases he with he | he
    · rw [hop]
      exact hev e he hacc
    · exact absurd hacc (hev' e he)
  · rw [hposts]
    simp only [sqesOf_append, List.mem_append]
    constructor
    · rintro ⟨e, he, hacc⟩
      exact ⟨e, .inl he, hacc⟩
    · rintro ⟨e, he | he, hacc⟩
      · exact ⟨e, he, hacc⟩
      · exact absurd hacc (hev' e he)

theorem Relistens.head {posts : Prop} (h : SameListener w w') (h' : Relistens posts w' w'') :
    Relistens posts w w'' := by
  obtain ⟨evs, htrace, hev⟩ := h.submits
  obtain ⟨evs', htrace', hev', hposts⟩ := h'.submits
  refine ⟨h'.1.trans h.1, fun hm => h.2 ▸ h'.mode hm, fun ha hw => h'.armed ?_ hw, evs ++ evs',
    by rw [htrace', htrace, List.append_assoc], ?_, ?_⟩
  · rw [h.useMsAccept, h.msAcceptArmed]
    exact ha
  · intro e he hacc
    rw [sqesOf_append, List.mem_append] at he
    rcases he with he | he
    · exact absurd hacc (hev e he)
    · exact hev' e he hacc
  · rw [hposts]
    simp only [sqesOf_append, List.mem_append]
    constructor
    · rintro ⟨e, he, hacc⟩
      exact ⟨e, .inr he, hacc⟩
    · rintro ⟨e, he | he, hacc⟩
      · exact absurd hacc (hev e he)
      · exact ⟨e, he, hacc⟩

/-- `post_accept`, once the flags `useMs` and `armed` are set. -/
theorem postAccept_relistens {b : Bool} (useMs armed : Bool) (hmode : useMs = true → w.useMsAccept = true)
    (hflags : armed = true → (w.msAcceptArmed = true → w.useMsAccept = true) → useMs = true)
    (h : { w with useMsAccept := useMs, msAcceptArmed := armed }.postAccept = some (b, w')) :
    Relistens (¬(useMs = true ∧ armed = true) ∧ w.env.sqes[0]? = some true) w w' := by
  rcases postAccept_cases h with ⟨hsame, hno⟩ | ⟨hno, hslot, hfd, huse, harm, e, htrace, hop⟩
  · obtain ⟨evs, htrace, hev⟩ := hsame.submits
    refine ⟨hsame.listenFd, fun hm => hmode (hsame.useMsAccept.symm.trans hm), fun ha hw => ?_, evs, htrace,
      fun e he hacc => absurd hacc (hev e he), ?_⟩
    · rw [hsame.useMsAccept]
      rw [hsame.msAcceptArmed] at hw
      exact hflags hw ha
    · constructor
      · rintro ⟨hblocked, hslot⟩
        rcases hno with hno | hno
        · exact absurd hno hblocked
        · have hno : w.env.sqes[0]? = some false := hno
          rw [hslot] at hno
          cases hno
      · rintro ⟨e, he, hacc⟩
        exact absurd hacc (hev e he)
  · have hop' : e.op = w'.acceptOp := by
      rw [hop, acceptOp, acceptOp, huse, hfd]
    refine ⟨hfd, fun hm => hmode (huse.symm.trans hm), fun ha hw => ?_, [.sqe e], htrace, fun e' he' _ => ?_, ?_⟩
    · rw [huse]
      rw [harm] at hw
      rcases Bool.or_eq_true_iff.mp hw with hw | hw
      · exact hw
      · exact hflags hw ha
    · obtain rfl : e' = e := by simpa [sqesOf] using he'
      exact hop'
    · refine ⟨fun _ => ⟨e, by simp [sqesOf], ?_⟩, fun _ => ⟨hno, hslot⟩⟩
      rw [hop']
      exact acceptOp_accepts w'

theorem Relistens.congr {posts posts' : Prop} (h : Relistens posts w w') (hp : posts' ↔ posts) :
    Relistens posts' w w' := by
  obtain ⟨evs, htrace, hev, hposts⟩ := h.submits
  exact ⟨h.listenFd, h.mode, h.armed, evs, htrace, hev, hp.trans hposts⟩

theorem acceptFailed_relistens {cqe : Cqe} (hres : cqe.res ≤ 0) (h : w.acceptFailed cqe.res = some w') :
    Relistens (w.Reposts cqe w.env) w w' := by
  have hslot : (if 0 < cqe.res then 1 else 0) = 0 := if_neg (Int32.not_lt.mpr hres)
  unfold Reposts
  rw [hslot]
  unfold acceptFailed at h
  split at h
  · rename_i hunsupported
    obtain ⟨⟨b, w₁⟩, hpost, h⟩ := Option.bind_eq_some_iff.mp h
    cases h
    refine ((postAccept_relistens (w := w) false false (fun h => by cases h) (fun h _ => by cases h) hpost).tail
      (submitLater_same b w₁)).congr ?_
    have hno : ¬(cqe.res ≠ -EINVAL ∧ cqe.res ≠ -EOPNOTSUPP) := fun h => hunsupported.elim h.1 h.2
    simp only [hno, and_false, not_false_eq_true, true_and, Bool.false_eq_true]
  · rename_i hother
    obtain ⟨⟨b, w₁⟩, hpost, h⟩ := Option.bind_eq_some_iff.mp h
    cases h
    refine ((postAccept_relistens (w := w) w.useMsAccept w.msAcceptArmed id (fun harm h => h harm) hpost).tail
      (submitLater_same b w₁)).congr ?_
    have hyes : cqe.res ≠ -EINVAL ∧ cqe.res ≠ -EOPNOTSUPP := not_or.mp hother
    simp only [hres, hyes, ne_eq, not_false_eq_true, and_true]

theorem rearmAccept_relistens {cqe : Cqe} (h : w.rearmAccept cqe = some w') :
    Relistens ((w.useMsAccept = true → cqe.more = false) ∧ w.env.sqes[0]? = some true) w w' := by
  unfold rearmAccept at h
  split at h
  · rename_i hms
    have hms : w.useMsAccept = false := by simpa using hms
    obtain ⟨⟨b, w₁⟩, hpost, h⟩ := Option.bind_eq_some_iff.mp h
    cases h
    refine ((postAccept_relistens (w := w) w.useMsAccept w.msAcceptArmed id (fun harm h => h harm) hpost).tail
      (submitLater_same b w₁)).congr ?_
    simp [hms]
  · split at h
    · rename_i hmore
      obtain ⟨⟨b, w₁⟩, hpost, h⟩ := Option.bind_eq_some_iff.mp h
      cases h
      refine ((postAccept_relistens (w := w) w.useMsAccept false id (fun h _ => by cases h) hpost).tail
        (submitLater_same b w₁)).congr ?_
      have hmore : cqe.more = false := by simpa using hmore
      simp [hmore]
    · rename_i hms hmore
      cases h
      refine (SameListener.refl w).relistens ?_
      rintro ⟨hno, -⟩
      simp only [Bool.not_eq_true, Bool.not_eq_false'] at hms hmore
      rw [hno hms] at hmore
      cases hmore

/-- The completion of an accept is followed by another accept, of the mode that is left, where `Reposts` says so and the
completion ends the accept. -/
theorem handleAccept_relistens {cqe : Cqe} (h : w.handleAccept cqe = some w') :
    Relistens ((w.useMsAccept = true → 0 < cqe.res → cqe.more = false) ∧ w.Reposts cqe w.env) w w' := by
  unfold handleAccept at h
  split at h
  · rename_i hres
    refine (acceptFailed_relistens hres h).congr ?_
    simp only [Int32.not_lt.mpr hres, false_implies, implies_true, true_and]
  · rename_i hres
    have hpos : 0 < cqe.res := Int32.not_le.mp hres
    obtain ⟨⟨b, w₁⟩, hrecv, h⟩ := Option.bind_eq_some_iff.mp h
    have hrecv : (w.addConn cqe.res).2.startRecv w.nextPtr = some (b, w₁) := hrecv
    have hadd : SameListener w (w.addConn cqe.res).2 :=
      ⟨rfl, rfl, rfl, [], (List.append_nil _).symm, fun _ h => absurd h List.not_mem_nil⟩
    have hsame := (hadd.trans (Prims.sameListener
      ((startRecv_prims (by rw [addConn_obj]) hrecv).mono fun e he => Effect.Works.serves e (Recvs.works e he)))).trans
      (submitLater_same b w₁)
    obtain ⟨b', hout⟩ := startRecv_outcome (by rw [addConn_obj]) hrecv
    have hout : w.env.sqes = b' :: w₁.env.sqes := hout
    refine (Relistens.head hsame (rearmAccept_relistens h)).congr ?_
    unfold Reposts
    rw [hsame.useMsAccept, submitLater_env, hout, if_pos hpos]
    simp [hres, hpos]

/-- The first accept is a multishot one, and counts as armed if it got a slot. -/
theorem startUp_listens {listenFd : Fd} {cfg : WorkerConfig} {routes : Routes} {allocated : Bool} {env : Env}
    (h : startUp listenFd cfg routes allocated env = some w) :
    w.useMsAccept = true ∧ (∀ e ∈ sqesOf w.trace, e.op.Accepts → e.op = w.acceptOp) ∧
      ((∃ e ∈ sqesOf w.trace, e.op.Accepts) ↔ w.msAcceptArmed = true) := by
  obtain ⟨w₁, hpool, h⟩ := Option.bind_eq_some_iff.mp h
  obtain ⟨⟨n, w₂⟩, hacc, h⟩ := Option.bind_eq_some_iff.mp h
  cases h
  have hpool : SameListener { listenFd := listenFd, cfg := cfg, routes := routes, env := env } w₁ := by
    unfold initBufferPool at hpool
    split at hpool
    · obtain ⟨⟨m, w₃⟩, hprov, hpool⟩ := Option.bind_eq_some_iff.mp hpool
      cases hpool
      have hprims : Prims Effect.Provides 0 0 _ _ := provideAll_prims hprov
      have hsame := Prims.sameListener (hprims.mono Provides.serves)
      exact ⟨hsame.1, hsame.2, hsame.3, hsame.4⟩
    · cases hpool
      exact ⟨rfl, rfl, rfl, [], rfl, fun _ h => absurd h List.not_mem_nil⟩
  obtain ⟨hfd, hms, harmed, evs, htrace, hev⟩ := hpool
  rw [List.nil_append] at htrace
  have hms : w₁.useMsAccept = true := hms
  have harmed : w₁.msAcceptArmed = false := harmed
  unfold postInitialAccepts at hacc
  rw [if_pos hms] at hacc
  obtain ⟨⟨b, w₃⟩, hpost, hacc⟩ := Option.bind_eq_some_iff.mp hacc
  cases hacc
  rcases postAccept_cases hpost with ⟨⟨_, hms', harmed', evs', htrace', hev'⟩, -⟩ |
    ⟨-, -, hfd', hms', harmed', e, htrace', hop⟩
  · have hnone : ∀ e ∈ sqesOf w₂.trace, ¬e.op.Accepts := by
      intro e he
      rw [htrace', htrace, sqesOf_append, List.mem_append] at he
      exact he.elim (hev e) (hev' e)
    refine ⟨hms'.trans hms, fun e he hacc => absurd hacc (hnone e he), fun ⟨e, he, hacc⟩ => absurd hacc (hnone e he),
      fun harm => ?_⟩
    have harm : w₂.msAcceptArmed = true := harm
    rw [harmed', harmed] at harm
    cases harm
  · have hop' : e.op = w₂.acceptOp := by rw [hop, acceptOp, acceptOp, hms', hfd']
    have hmem : ∀ e' ∈ sqesOf w₂.trace, e'.op.Accepts → e' = e := by
      intro e' he hacc
      rw [htrace', htrace, sqesOf_append, List.mem_append] at he
      exact he.elim (fun he => absurd hacc (hev e' he)) fun he => by simpa [sqesOf] using he
    refine ⟨hms'.trans hms, fun e' he hacc => ?_, fun _ => ?_, fun _ => ⟨e, ?_, ?_⟩⟩
    · rw [hmem e' he hacc]
      exact hop'
    · show w₂.msAcceptArmed = true
      rw [harmed', hms]
      rfl
    · rw [htrace']
      simp [sqesOf]
    · rw [hop']
      exact acceptOp_accepts w₂

end Worker

namespace Sys

open Worker

variable {d : Dispatch} {ok : Sys → Action → Prop} {s s' t : Sys} {a : Action} {p : Pending} {cqe : Cqe}
  {ts : List (Transition Sys Action)} {w w' : Worker}

/-! ## What is handled as an accept -/

/-- The completion of an accept is handled as such. -/
theorem handled_accept (hr : Reachable d ok s) (hp : p ∈ s.pending) (hacc : p.sqe.op.Accepts) :
    handled d w p cqe = w.handleAccept cqe := by
  have hread : ∃ fd, d.read p = some (fd, .accept) := by
    cases d with
    | posted => cases hop : p.sqe.op <;> rw [hop] at hacc <;> first
        | exact hacc.elim
        | exact ⟨_, by simp [Dispatch.read, Pending.posted, hop]; rfl⟩
    | tagged =>
      have htag : ∀ u, p.sqe.op.tag = some u → p.tag = u := fun u hu => pending_tag hr hp hu
      cases hop : p.sqe.op <;> rw [hop] at hacc htag <;> first
        | exact hacc.elim
        | refine ⟨_, congrArg some (Prod.ext rfl ?_)⟩
          rw [htag _ rfl, packUd_eq]
          exact unpack_kind ..
  obtain ⟨fd, hread⟩ := hread
  unfold handled
  rw [hread]
  rfl

/-- Any completion that is not handled as an accept leaves the listener alone. -/
theorem handled_other (hok : w.Ok) (h : handled d w p cqe = some w') :
    SameListener w w' ∨ w.handleAccept cqe = some w' := by
  unfold handled at h
  split at h
  · obtain ⟨c, hc, h⟩ | rfl | ⟨-, h⟩ | ⟨-, rfl⟩ := handle_cases h
    · exact .inl (handleConn_prims (hok.at hc) h).sameListener
    · exact .inl (.refl _)
    · exact .inr h
    · exact .inl ⟨rfl, rfl, rfl, [], (List.append_nil _).symm, fun _ h => absurd h List.not_mem_nil⟩
  · cases h
    exact .inl (.refl _)

/-! ## Accepts outstanding -/

/-- An accept on the listening socket is outstanding, and a multishot one whenever `ms_accept_armed_` says so. -/
def Listening (s : Sys) : Prop :=
  (∃ p ∈ s.pending, p.sqe.op = .accept s.w.listenFd ∨ p.sqe.op = .multishotAccept s.w.listenFd) ∧
  (s.w.msAcceptArmed = true → ∃ p ∈ s.pending, p.sqe.op = .multishotAccept s.w.listenFd)

/-- When the last accept that is outstanding ends, another one is posted. -/
def KeepsListening (s : Sys) : Action → Prop
  | .complete i cqe _ env => ∀ p ∈ s.pending[i]?, p.sqe.op.Accepts → goesOn p cqe = false →
      (∀ q ∈ s.pending.eraseIdx i, ¬q.sqe.op.Accepts) → s.w.Reposts cqe env
  | _ => True

instance (s : Sys) (a : Action) : Decidable (s.KeepsListening a) :=
  match a with
  | .complete i cqe _ env => inferInstanceAs (Decidable (∀ p ∈ s.pending[i]?, p.sqe.op.Accepts → goesOn p cqe = false →
      (∀ q ∈ s.pending.eraseIdx i, ¬q.sqe.op.Accepts) → s.w.Reposts cqe env))
  | .executeClose _ | .endBatch => isTrue trivial

/-- A multishot accept counts as armed only in multishot mode, and while this is on no accept is outstanding but
multishot ones. -/
structure Modes (s : Sys) : Prop where
  armed : s.w.msAcceptArmed = true → s.w.useMsAccept = true
  ops : ∀ p ∈ s.pending, p.sqe.op.Accepts →
    p.sqe.op = s.w.acceptOp ∨ (s.w.useMsAccept = false ∧ p.sqe.op = .multishotAccept s.w.listenFd)

def Owed (s : Sys) : Prop := ∃ p ∈ s.pending, p.sqe.op.Accepts

theorem Modes.listens_iff_owed (h : s.Modes) : s.Listening ↔ s.Owed := by
  constructor
  · rintro ⟨⟨p, hp, hop⟩, -⟩
    exact ⟨p, hp, by rcases hop with hop | hop <;> rw [hop] <;> trivial⟩
  · rintro ⟨p, hp, hacc⟩
    have hop := h.ops p hp hacc
    unfold acceptOp at hop
    refine ⟨⟨p, hp, ?_⟩, fun harm => ⟨p, hp, ?_⟩⟩
    · split at hop
      · exact hop.elim .inr fun hop => .inr hop.2
      · exact hop.imp id fun hop => hop.2
    · rw [if_pos (h.armed harm), h.armed harm] at hop
      exact hop.resolve_right fun hop => by cases hop.1

theorem Modes.after {posts : Prop} {i : Nat} {data : Bytes} (h : s.Modes) (hl : Relistens posts s.w w') :
    (s.after i p cqe data w').Modes := by
  obtain ⟨evs, htrace, hev, -⟩ := hl.submits
  refine ⟨hl.armed h.armed, fun q hq hacc => ?_⟩
  rcases (mem_after htrace).mp hq with hq | ⟨ev, hev', hq⟩
  · have hop := h.ops q (mem_of_mem_rest hq) hacc
    show q.sqe.op = w'.acceptOp ∨ (w'.useMsAccept = false ∧ q.sqe.op = .multishotAccept w'.listenFd)
    rw [hl.listenFd]
    unfold acceptOp at hop ⊢
    rw [hl.listenFd]
    cases hms' : w'.useMsAccept with
    | true =>
      rw [if_pos (hl.mode hms'), hl.mode hms'] at hop
      exact hop.imp id fun hop => by cases hop.1
    | false =>
      cases hms : s.w.useMsAccept with
      | true =>
        rw [if_pos hms, hms] at hop
        exact .inr ⟨rfl, hop.elim id fun hop => hop.2⟩
      | false =>
        rw [if_neg (by simp [hms])] at hop
        exact hop.imp id fun hop => ⟨rfl, hop.2⟩
  · rw [(Event.mem_owed hq).1] at hev'
    exact .inl (hev _ (mem_sqesOf.mpr hev') hacc)

theorem arrive_listener (s : Sys) (p : Pending) (cqe : Cqe) (data : Bytes) (env : Env) :
    SameListener s.w (s.arrive p cqe data env) := by
  unfold arrive fillBuffer
  split <;> exact ⟨rfl, rfl, rfl, [], (List.append_nil _).symm, fun _ h => absurd h List.not_mem_nil⟩

/-- What a completion makes of the listener. -/
theorem complete_relistens {i : Nat} {data : Bytes} {env : Env} (hr : Reachable d ok s) (hp : s.pending[i]? = some p)
    (hw : handled d (s.arrive p cqe data env) p cqe = some w') :
    ∃ posts, Relistens posts s.w w' ∧
      (p.sqe.op.Accepts →
        (posts ↔ (s.w.useMsAccept = true → 0 < cqe.res → cqe.more = false) ∧ s.w.Reposts cqe env)) := by
  have hmem := List.mem_of_getElem? hp
  have harr := arrive_listener s p cqe data env
  by_cases hacc : p.sqe.op.Accepts
  · rw [handled_accept hr hmem hacc] at hw
    refine ⟨_, .head harr (handleAccept_relistens hw), fun _ => ?_⟩
    unfold Reposts
    rw [harr.useMsAccept, harr.msAcceptArmed]
    rfl
  · rcases handled_other ((table_ok hr).move (arrive_move ..)) hw with hsame | hw
    · exact ⟨False, (harr.trans hsame).relistens id, fun h => absurd h hacc⟩
    · exact ⟨_, .head harr (handleAccept_relistens hw), fun h => absurd h hacc⟩

theorem modes (h : Reachable d ok s) : s.Modes := by
  refine Reach.invariant_of (K := Reachable d ok) (I := Modes) (fun _ => id) (fun s h => ?_)
    (fun s a s' hr hm _ h => ?_) s h
  · obtain ⟨_, _, _, _, _, h, hpend, -⟩ := h
    obtain ⟨hms, hops, -⟩ := startUp_listens h
    refine ⟨fun _ => hms, fun p hp hacc => .inl ?_⟩
    rw [hpend] at hp
    obtain ⟨ev, hev, hp⟩ := List.mem_flatMap.mp hp
    rw [(Event.mem_owed hp).1] at hev
    exact hops _ (mem_sqesOf.mpr hev) hacc
  · cases (step_cases h).2 with
    | executeClose hp hop hex =>
      refine ⟨hm.armed, fun q hq hacc => ?_⟩
      rcases List.mem_or_eq_of_mem_set hq with hq | rfl
      · exact hm.ops q hq hacc
      · rw [hop] at hacc
        exact hacc.elim
    | endBatch => exact ⟨hm.armed, hm.ops⟩
    | complete hp hadm hw =>
      obtain ⟨posts, hl, -⟩ := complete_relistens hr hp hw
      exact hm.after hl

/-- An accept stays outstanding exactly if the last one does not end without another. -/
theorem step_owed (hr : Reachable d ok s) (ho : s.Owed) (h : step d s a = some s') :
    s'.Owed ↔ s.KeepsListening a := by
  cases (step_cases h).2 with
  | executeClose hp hop hex =>
    refine iff_of_true ?_ trivial
    obtain ⟨q, hq, hacc⟩ := ho
    obtain ⟨j, hj⟩ := List.getElem?_of_mem hq
    rename_i i p fd
    refine ⟨q, List.mem_of_getElem? (i := j) ?_, hacc⟩
    rw [List.getElem?_set_ne, hj]
    rintro rfl
    rw [hp] at hj
    obtain rfl := Option.some.inj hj
    rw [hop] at hacc
    exact hacc
  | endBatch => exact iff_of_true ho trivial
  | complete hp hadm hw =>
    rename_i i cqe data env p w'
    obtain ⟨posts, hl, hposts⟩ := complete_relistens hr hp hw
    obtain ⟨evs, htrace, -, hev⟩ := hl.submits
    have hkeeps : s.KeepsListening (.complete i cqe data env) ↔ (p.sqe.op.Accepts → goesOn p cqe = false →
        (∀ q ∈ s.pending.eraseIdx i, ¬q.sqe.op.Accepts) → s.w.Reposts cqe env) := by
      simp only [KeepsListening, hp, Option.mem_some_iff, forall_eq']
    rw [hkeeps]
    have hstay : ∀ q, q ∈ (if goesOn p cqe then s.pending else s.pending.eraseIdx i) → q.sqe.op.Accepts →
        (s.after i p cqe data w').Owed := fun q hq hacc => ⟨q, (mem_after htrace).mpr (.inl hq), hacc⟩
    by_cases hacc : p.sqe.op.Accepts
    · cases hgo : goesOn p cqe with
      | true =>
        refine iff_of_true (hstay p ?_ hacc) fun _ h => by cases h
        rw [if_pos hgo]
        exact List.mem_of_getElem? hp
      | false =>
        by_cases hother : ∀ q ∈ s.pending.eraseIdx i, ¬q.sqe.op.Accepts
        · -- the last accept has ended, and what is posted decides
          have hends : s.w.useMsAccept = true → 0 < cqe.res → cqe.more = false := fun hms _ => by
            have hop := (modes hr).ops p (List.mem_of_getElem? hp) hacc
            rw [acceptOp, if_pos hms, hms] at hop
            have hop := hop.resolve_right fun hop => by cases hop.1
            rwa [goesOn, hop] at hgo
          have howed : (s.after i p cqe data w').Owed ↔ ∃ e ∈ sqesOf evs, e.op.Accepts := by
            constructor
            · rintro ⟨q, hq, hacc⟩
              rcases (mem_after htrace).mp hq with hq | ⟨ev, hev, hq⟩
              · rw [hgo] at hq
                exact absurd hacc (hother q hq)
              · rw [(Event.mem_owed hq).1] at hev
                exact ⟨q.sqe, mem_sqesOf.mpr hev, hacc⟩
            · rintro ⟨e, he, hacc⟩
              exact ⟨{ sqe := e }, (mem_after htrace).mpr (.inr ⟨_, mem_sqesOf.mp he, Event.owed_self e⟩), hacc⟩
          rw [howed, ← hev, hposts hacc]
          exact ⟨fun h _ _ _ => h.2, fun h => ⟨hends, h hacc rfl hother⟩⟩
        · obtain ⟨q, hq, hqacc⟩ := not_forall₂.mp hother
          refine iff_of_true (hstay q ?_ (not_not.mp hqacc)) fun _ _ h => absurd h hother
          rw [if_neg (by simp [hgo])]
          exact hq
    · obtain ⟨q, hq, hqacc⟩ := ho
      refine iff_of_true (hstay q (mem_rest hp hq ?_) hqacc) fun h => absurd h hacc
      rintro rfl
      exact hacc hqacc

theorem run_owed (hr : Reachable d ok s) (ho : s.Owed) (h : Run (step d) s ts t) (hok : ∀ s a, ok s a) :
    (∀ e ∈ ts, e.after.Owed) ↔ ∀ e ∈ ts, e.before.KeepsListening e.action := by
  induction h with
  | nil => simp
  | cons hstep _ ih =>
    have hone := step_owed hr ho hstep
    rw [List.forall_mem_cons, List.forall_mem_cons, hone]
    exact and_congr_right fun hkeeps => ih (.next hr (hok _ _) hstep) (hone.mpr hkeeps)

/-- In every run the listener has an accept outstanding in every state, and a multishot one whenever it believes so,
exactly if the first accept got a slot and the last accept outstanding never ends without another. -/
theorem listening_iff (h0 : Init s) (h : Run (step d) s ts t) :
    (s.Listening ∧ ∀ e ∈ ts, e.after.Listening) ↔
      s.w.msAcceptArmed = true ∧ ∀ e ∈ ts, e.before.KeepsListening e.action := by
  have hr : Reachable d (fun _ _ => True) s := .start h0
  have hafter : ∀ e ∈ ts, e.after.Modes :=
    h.forall_step (Q := fun _ _ s' => s'.Modes) (fun _ _ _ hr _ hstep => modes (.next hr trivial hstep)) hr
      fun _ _ => trivial
  have hstart : s.Owed ↔ s.w.msAcceptArmed = true := by
    obtain ⟨_, _, _, _, _, hw, hpend, -⟩ := h0
    rw [← (startUp_listens hw).2.2, Owed, hpend]
    constructor
    · rintro ⟨p, hp, hacc⟩
      obtain ⟨ev, hev, hp⟩ := List.mem_flatMap.mp hp
      rw [(Event.mem_owed hp).1] at hev
      exact ⟨p.sqe, mem_sqesOf.mpr hev, hacc⟩
    · rintro ⟨e, he, hacc⟩
      exact ⟨{ sqe := e }, List.mem_flatMap.mpr ⟨_, mem_sqesOf.mp he, Event.owed_self e⟩, hacc⟩
  rw [(modes hr).listens_iff_owed, forall₂_congr fun e he => (hafter e he).listens_iff_owed, ← hstart]
  exact and_congr_right fun ho => run_owed hr ho h fun _ _ => trivial

/-- Two connections are accepted, the second ends the multishot accept; then multishot mode is turned off. -/
def accepting : List Action :=
  [.complete 0 { res := 5, more := true } [] { sqes := [true] }, .complete 0 { res := 6 } [] { sqes := [false, true] },
    .complete 1 { res := -22 } [] { sqes := [true] }]

theorem listening_iff_accepting : ∃ s t ts, withoutPool [] = some s ∧ Run (step .tagged) s ts t ∧
    ts.map (·.action) = accepting ∧ s.Listening ∧ ∀ e ∈ ts, e.after.Listening := by
  obtain ⟨s, hs, harmed⟩ := Option.map_eq_some_iff.mp (show (withoutPool []).map (·.w.msAcceptArmed) = some true by
    decide +kernel)
  have hrun : ((withoutPool []).bind (execAll (step .tagged) KeepsListening accepting)).isSome = true := by
    decide +kernel
  rw [hs] at hrun
  obtain ⟨t, ht⟩ := Option.isSome_iff_exists.mp hrun
  obtain ⟨ts, hts, hacts, hkeeps⟩ := Run.exec (show execAll (step .tagged) KeepsListening accepting s = some t from ht)
  exact ⟨s, t, ts, hs, hts, hacts, (listening_iff (start_init hs) hts).mpr ⟨harmed, hkeeps⟩⟩

/-- The accept fails because the process has no descriptor left, and none is posted: the worker waits for completions of
nothing. -/
theorem listener_deaf : ∃ s,
    serve .tagged (fun _ _ => True) [.complete 0 { res := -24 } [] { sqes := [true] }] = some s ∧
    Reachable .tagged (fun _ _ => True) s ∧ s.pending = [] ∧ s.w.msAcceptArmed = true ∧ ¬s.Listening := by
  obtain ⟨s, hs, hobs⟩ := Option.map_eq_some_iff.mp (show
    (serve .tagged (fun _ _ => True) [.complete 0 { res := -24 } [] { sqes := [true] }]).map (fun s =>
      (s.pending, s.w.msAcceptArmed)) = some ([], true) by decide +kernel)
  obtain ⟨hpend, harmed⟩ := Prod.mk.inj hobs
  refine ⟨s, hs, run_reachable hs, hpend, harmed, ?_⟩
  rintro ⟨⟨p, hp, -⟩, -⟩
  rw [hpend] at hp
  cases hp

end Sys

end IOContext
