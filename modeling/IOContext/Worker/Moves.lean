import IOContext.Worker.Blocks

/-!
# How the worker moves

Between two completions the worker is what start-up and the handlers have made of it; `Move` lists what these do: a
sequence of primitive steps for a connection of the table, or for the listener, a new connection, an erased one, and
what is decided outside of the program.

- A completion moves the worker (`handle_moves`), and so does start-up (`startUp_moves`).
- The entries of the table are objects that exist and know their number (`Ok`, kept by `Ok.move`).
-/

namespace IOContext

namespace Worker

inductive Move : Worker → Worker → Prop
  | conn {w w' : Worker} {c : Ptr} {fd : Fd} (hat : w.At c fd) (h : Prims Effect.Serves c fd w w') : Move w w'
  | listen {w w' : Worker} (h : ∀ c fd, Prims Effect.Listens c fd w w') : Move w w'
  | accept {w w' : Worker} (cfd : Fd) (h : Prims (fun _ => True) w.nextPtr cfd (w.addConn cfd).2 w') : Move w w'
  | erase {w : Worker} (fd : Fd) : Move w (w.tableErase fd)
  | outside {w : Worker} (bufPool holds : Nat → Bytes) (haveBufPool : Bool) (env : Env) (needSubmit : UInt16) :
      Move w { w with
        bufPool := bufPool, holds := holds, haveBufPool := haveBufPool, env := env, needSubmit := needSubmit }

abbrev Moves : Worker → Worker → Prop := Relation.ReflTransGen Move

section

variable {c : Ptr} {fd : Fd} {w w' : Worker}

/-! ## Accepting -/

theorem Accepts.listens : ∀ e, Effect.Accepts e → Effect.Listens e
  | _, .accept _ => .submit _
  | _, .acceptMode => .acceptMode

theorem acceptFailed_prims {res : Int32} (h : w.acceptFailed res = some w') :
    Prims Effect.Accepts c fd w w' := by
  obtain ⟨⟨b, w₁⟩, hpost, h⟩ := Option.bind_eq_some_iff.mp h
  cases h
  have hflags : Prims Effect.Accepts c fd w
      (if res = -EINVAL ∨ res = -EOPNOTSUPP then { w with useMsAccept := false, msAcceptArmed := false } else w) := by
    split
    · exact .single (.acceptMode .acceptMode ..)
    · exact .refl
  exact (hflags.trans (postAccept_prims hpost)).trans (submitLater_prims b)

theorem rearmAccept_prims {cqe : Cqe} (h : w.rearmAccept cqe = some w') :
    Prims Effect.Accepts c fd w w' := by
  unfold rearmAccept at h
  split at h
  · obtain ⟨⟨b, w₁⟩, hpost, h⟩ := Option.bind_eq_some_iff.mp h
    cases h
    exact (postAccept_prims hpost).trans (submitLater_prims b)
  · split at h
    · obtain ⟨⟨b, w₁⟩, hpost, h⟩ := Option.bind_eq_some_iff.mp h
      cases h
      have hflag : Prims Effect.Accepts c fd w { w with msAcceptArmed := false } :=
        .single (.acceptMode .acceptMode ..)
      exact (hflag.trans (postAccept_prims hpost)).trans (submitLater_prims b)
    · cases h
      exact .refl

@[simp] theorem addConn_obj (w : Worker) (cfd : Fd) :
    (w.addConn cfd).2.heap w.nextPtr =
      { fd := cfd, keepaliveLimit := w.cfg.maxKeepaliveRequests, hasOwner := true } := by
  simp [addConn, tableAdd]

theorem addConn_heap_ne (w : Worker) (cfd : Fd) {q : Ptr} (hq : q ≠ w.nextPtr) :
    (w.addConn cfd).2.heap q = w.heap q := by
  simp only [addConn, tableAdd]
  rw [heap_modify_ne _ hq]
  exact Function.update_of_ne hq ..

/-- The object of an accepted connection is new, and only its first receive and accepts are submitted. -/
theorem handleAccept_accepts {cqe : Cqe} (h : w.handleAccept cqe = some w') :
    (cqe.res ≤ 0 ∧ ∀ c fd, Prims Effect.Accepts c fd w w') ∨
    (0 < cqe.res ∧ ∃ b w₁, (w.addConn cqe.res).2.startRecv w.nextPtr = some (b, w₁) ∧
      ∀ c fd, Prims Effect.Accepts c fd w₁ w') := by
  unfold handleAccept at h
  split at h
  · rename_i hres
    exact .inl ⟨hres, fun _ _ => acceptFailed_prims h⟩
  · rename_i hres
    obtain ⟨⟨b, w₁⟩, hrecv, h⟩ := Option.bind_eq_some_iff.mp h
    exact .inr ⟨Int32.not_le.mp hres, b, w₁, hrecv,
      fun _ _ => (submitLater_prims b).trans (rearmAccept_prims h)⟩

/-- The object of an accepted connection is new, and it is the only one that changes. -/
theorem handleAccept_cases {cqe : Cqe} (h : w.handleAccept cqe = some w') :
    (cqe.res ≤ 0 ∧ ∀ c fd, Prims Effect.Listens c fd w w') ∨
    (0 < cqe.res ∧ ∃ b w₁, (w.addConn cqe.res).2.startRecv w.nextPtr = some (b, w₁) ∧
      ∀ c fd, Prims Effect.Listens c fd w₁ w') := by
  obtain ⟨hres, h⟩ | ⟨hres, b, w₁, hrecv, h⟩ := handleAccept_accepts h
  · exact .inl ⟨hres, fun c fd => (h c fd).mono Accepts.listens⟩
  · exact .inr ⟨hres, b, w₁, hrecv, fun c fd => (h c fd).mono Accepts.listens⟩

/-! ## The table -/

/-- The entries of the table are objects that exist and know their number. -/
structure Ok (w : Worker) : Prop where
  obj : ∀ fd c, w.table fd = some c → (w.heap c).fd = fd
  lt : ∀ fd c, w.table fd = some c → c < w.nextPtr

theorem Ok.at (hok : w.Ok) (h : w.table fd = some c) : w.At c fd := ⟨h, hok.obj fd c h⟩

theorem Ok.inj (hok : w.Ok) {fd' : Fd} (h : w.table fd = some c) (h' : w.table fd' = some c) : fd = fd' :=
  (hok.obj fd c h).symm.trans (hok.obj fd' c h')

theorem Ok.frame (hok : w.Ok) (h : Frame c w w') : w'.Ok := by
  refine ⟨fun fd q hq => ?_, fun fd q hq => ?_⟩
  · rw [h.table] at hq
    by_cases hqc : q = c
    · rw [hqc, h.obj, ← hqc, hok.obj fd q hq]
    · rw [h.heap q hqc, hok.obj fd q hq]
  · rw [h.table] at hq
    rw [h.nextPtr]
    exact hok.lt fd q hq

theorem addConn_table (w : Worker) (cfd : Fd) :
    (w.addConn cfd).2.table =
      if w.table cfd = none then Function.update w.table cfd (some w.nextPtr) else w.table := rfl

theorem Ok.addConn (hok : w.Ok) (cfd : Fd) : (w.addConn cfd).2.Ok := by
  have hold : ∀ fd q, w.table fd = some q →
      ((w.addConn cfd).2.heap q).fd = fd ∧ q < (w.addConn cfd).2.nextPtr := fun fd q hq => by
    have hlt := hok.lt fd q hq
    rw [addConn_heap_ne w cfd (Nat.ne_of_lt hlt)]
    exact ⟨hok.obj fd q hq, Nat.lt_succ_of_lt hlt⟩
  have hnew : ∀ fd q, (w.addConn cfd).2.table fd = some q →
      ((w.addConn cfd).2.heap q).fd = fd ∧ q < (w.addConn cfd).2.nextPtr := fun fd q hq => by
    rw [addConn_table] at hq
    split at hq
    · by_cases hfd : fd = cfd
      · rw [hfd, Function.update_self] at hq
        cases hq
        rw [addConn_obj, hfd]
        exact ⟨rfl, Nat.lt_succ_self _⟩
      · rw [Function.update_of_ne hfd] at hq
        exact hold fd q hq
    · exact hold fd q hq
  exact ⟨fun fd q hq => (hnew fd q hq).1, fun fd q hq => (hnew fd q hq).2⟩

theorem Ok.erase (hok : w.Ok) (fd : Fd) : (w.tableErase fd).Ok := by
  have hsub : ∀ fd' q, (w.tableErase fd).table fd' = some q → w.table fd' = some q := fun fd' q hq => by
    unfold tableErase at hq
    by_cases hfd : fd' = fd
    · rw [hfd] at hq
      simp at hq
    · simpa [Function.update_of_ne hfd] using hq
  exact ⟨fun fd' q hq => hok.obj fd' q (hsub fd' q hq), fun fd' q hq => hok.lt fd' q (hsub fd' q hq)⟩

theorem Ok.move (hok : w.Ok) (h : Move w w') : w'.Ok := by
  cases h with
  | conn _ h => exact hok.frame h.frame
  | listen h => exact hok.frame (h 0 0).frame
  | accept cfd h => exact (hok.addConn cfd).frame h.frame
  | erase fd => exact hok.erase fd
  | outside => exact ⟨hok.obj, hok.lt⟩

theorem Ok.moves (hok : w.Ok) (h : Moves w w') : w'.Ok := by
  induction h with
  | refl => exact hok
  | tail _ h ih => exact ih.move h

/-- The handlers that have been set up stay. -/
theorem Move.routes (h : Move w w') : w'.routes = w.routes := by
  cases h with
  | conn _ h => exact h.frame.routes
  | listen h => exact (h 0 0).frame.routes
  | accept cfd h => exact h.frame.routes
  | erase fd => rfl
  | outside => rfl

theorem Moves.routes (h : Moves w w') : w'.routes = w.routes := by
  induction h with
  | refl => rfl
  | tail _ hm ih => exact hm.routes.trans ih

/-! ## Completions -/

/-- What a completion is for. -/
theorem handle_cases {kind : Workflow} {cqe : Cqe} (h : w.handle fd kind cqe = some w') :
    (∃ c, w.table fd = some c ∧ w.handleConn c fd kind cqe = some w') ∨ w' = w ∨
    (kind = .accept ∧ w.handleAccept cqe = some w') ∨ (kind = .closed ∧ w' = w.tableErase fd) := by
  unfold handle at h
  split at h
  · exact .inr (.inr (.inl ⟨rfl, h⟩))
  · cases h
    exact .inr (.inr (.inr ⟨rfl, rfl⟩))
  · cases h
    exact .inr (.inl rfl)
  · split at h
    · cases h
      exact .inr (.inl rfl)
    · rename_i c hc
      exact .inl ⟨c, hc, h⟩

theorem handle_moves {kind : Workflow} {cqe : Cqe} (hok : w.Ok) (h : w.handle fd kind cqe = some w') : Moves w w' := by
  obtain ⟨c, hc, h⟩ | rfl | ⟨-, h⟩ | ⟨-, rfl⟩ := handle_cases h
  · exact .single (.conn (hok.at hc) (handleConn_prims (hok.at hc) h))
  · exact .refl
  · obtain ⟨-, h⟩ | ⟨-, b, w₁, hrecv, h⟩ := handleAccept_cases h
    · exact .single (.listen h)
    · have hobj : ((w.addConn cqe.res).2.heap w.nextPtr).fd = cqe.res := by simp
      exact .single (.accept cqe.res ((startRecv_prims hobj hrecv).any.trans (h _ _).any))
  · exact .single (.erase fd)

/-! ## Start-up -/

theorem Provides.listens : ∀ e, Effect.Provides e → Effect.Listens e
  | _, .provide _ _ => .submit _

theorem provideAll_prims : ∀ {n i j : Nat} {w w' : Worker}, provideAll i n w = some (j, w') →
    Prims Effect.Provides c fd w w'
  | 0, _, _, _, _, h => by
    cases h
    exact .refl
  | n + 1, i, j, w, w', h => by
    obtain ⟨⟨b, w₁⟩, hsqe, h⟩ := Option.bind_eq_some_iff.mp h
    obtain ⟨sqes, -, rfl⟩ := getSqeOrSubmit_eq hsqe
    cases b with
    | false =>
      cases h
      exact withSqes_prims sqes
    | true =>
      exact ((withSqes_prims sqes).tail (.submit (.provide _ i) (.buffer _ i))).trans
        (provideAll_prims h)

theorem postAccepts_prims : ∀ {n : Nat} {k k' : UInt16} {w w' : Worker}, postAccepts n k w = some (k', w') →
    Prims Effect.Accepts c fd w w'
  | 0, _, _, _, _, h => by
    cases h
    exact .refl
  | n + 1, k, k', w, w', h => by
    obtain ⟨⟨b, w₁⟩, hpost, h⟩ := Option.bind_eq_some_iff.mp h
    exact (postAccept_prims hpost).trans (postAccepts_prims h)

theorem postInitialAccepts_prims {k : UInt16} (h : w.postInitialAccepts = some (k, w')) :
    Prims Effect.Accepts c fd w w' := by
  unfold postInitialAccepts at h
  split at h
  · obtain ⟨⟨b, w₁⟩, hpost, h⟩ := Option.bind_eq_some_iff.mp h
    cases h
    exact postAccept_prims hpost
  · exact postAccepts_prims h

theorem initBufferPool_moves {allocated : Bool} (h : w.initBufferPool allocated = some w') : Moves w w' := by
  unfold initBufferPool at h
  split at h
  · obtain ⟨⟨n, w₁⟩, hprov, h⟩ := Option.bind_eq_some_iff.mp h
    cases h
    exact .tail (.single (.listen fun _ _ => (provideAll_prims hprov).mono Provides.listens)) (.outside ..)
  · cases h
    exact .single (.outside ..)

theorem startUp_moves {listenFd : Fd} {cfg : WorkerConfig} {routes : Routes} {allocated : Bool} {env : Env}
    (h : startUp listenFd cfg routes allocated env = some w) :
    Moves { listenFd := listenFd, cfg := cfg, routes := routes, env := env } w := by
  obtain ⟨w₁, hpool, h⟩ := Option.bind_eq_some_iff.mp h
  obtain ⟨⟨n, w₂⟩, hacc, h⟩ := Option.bind_eq_some_iff.mp h
  cases h
  exact ((initBufferPool_moves hpool).tail (.listen fun _ _ =>
    (postInitialAccepts_prims hacc).mono Accepts.listens)).tail (.outside ..)

end

end Worker

end IOContext
