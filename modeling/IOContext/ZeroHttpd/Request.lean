import IOContext.Base.Search
import IOContext.Base.Tokens
import IOContext.Epoll.RequestContext
import IOContext.Http.Framing

/-!
# The static file server: a request

`handle_client_request` copies the first line of what has been read, takes the method and the path off it with
`strtok_r`, and answers with a file below `public`, with one of two error pages, or not at all: the process ends when
the line does not, and a line without a method or a path, a path that is too long and a file of an unknown type are
undefined behaviour.

- Exactly these requests are answered, and so (`answered_iff`).
- An answer has one blank line behind its lines, and a file's announces the length of what follows (`framed`).
-/

namespace IOContext.ZeroHttpd

open Search Tokens
open Epoll (toLower)

/-! ## Data -/

def READ_SZ : Nat := 8192

/-- The size of `http_request`, `final_path` and `small_case_path`. -/
def LINE_SZ : Nat := 1024

/-- How the process ends: by `exit(1)`, by what C does not define, by freeing a block or closing a socket that is not
there. -/
inductive Halt
  | exited
  | undefined
  | badFree
  | badClose
deriving DecidableEq, Repr

/-- What `stat` tells of a path. -/
inductive Stat
  | missing
  | special
  | regular (size : Nat)
deriving DecidableEq, Repr

/-- The files, as `stat`, `open` and `read` see them. -/
structure Files where
  stat : Bytes → Stat
  /-- The buffer after `read`, with what it has not filled; `none` is a file that cannot be opened. -/
  buffer : Bytes → Option (Nat → UInt8)

/-- `iov[0].iov_base` of a read, which has been cleared before. -/
def readBuffer (p : Bytes) : Bytes := p ++ List.replicate (READ_SZ - p.length) 0

def unimplementedContent : Bytes :=
  ascii "HTTP/1.0 400 Bad Request\r\nContent-type: text/html\r\n\r\n<html><head>" ++
  ascii "<title>ZeroHTTPd: Unimplemented</title></head><body><h1>Bad Request (Unimplemented)</h1>" ++
  ascii "<p>Your client sent a request ZeroHTTPd did not understand and it is probably not your fault.</p>" ++
  ascii "</body></html>"

def http404Content : Bytes :=
  ascii "HTTP/1.0 404 Not Found\r\nContent-type: text/html\r\n\r\n<html><head>" ++
  ascii "<title>ZeroHTTPd: Not Found</title></head><body><h1>Not Found (404)</h1>" ++
  ascii "<p>Your client is asking for an object that was not found on this server.</p></body></html>"

def SERVER_STRING : Bytes := ascii "Server: zerohttpd/0.1\r\n"

def contentTypes : List (Bytes × Bytes) :=
  [(ascii "jpg", ascii "Content-Type: image/jpeg\r\n"), (ascii "jpeg", ascii "Content-Type: image/jpeg\r\n"),
    (ascii "png", ascii "Content-Type: image/png\r\n"), (ascii "gif", ascii "Content-Type: image/gif\r\n"),
    (ascii "htm", ascii "Content-Type: text/html\r\n"), (ascii "html", ascii "Content-Type: text/html\r\n"),
    (ascii "js", ascii "Content-Type: application/javascript\r\n"), (ascii "css", ascii "Content-Type: text/css\r\n"),
    (ascii "txt", ascii "Content-Type: text/plain\r\n")]

/-! ## The handlers -/

/-- `get_line`, into an array of `n` bytes. -/
def getLine : Nat → Bytes → Option Bytes
  | 0, _ => none
  | _ + 1, [] => none
  | n + 1, b :: s => if b = CR ∧ s.head? = some LF then some [] else (getLine n s).map (b :: ·)

/-- What is behind the last dot, unless the name begins with it. -/
def getFilenameExt (filename : Bytes) : Bytes :=
  let ext := filename.reverse.takeWhile (· != 46)
  if ext.length + 1 < filename.length then ext.reverse else []

/-- No content type is an array that has not been written to. -/
def sendHeaders (path : Bytes) (len : Nat) : Except Halt (List Bytes) :=
  match contentTypes.lookup (getFilenameExt (path.map toLower)) with
  | none => .error .undefined
  | some contentType =>
    .ok [ascii "HTTP/1.0 200 OK\r\n", SERVER_STRING, contentType,
      ascii "content-length: " ++ toDecimal len ++ [CR, LF], [CR, LF]]

def copyFileContents (files : Files) (filePath : Bytes) (fileSize : Nat) : Except Halt Bytes :=
  match files.buffer filePath with
  | none => .error .exited
  | some buf => .ok ((List.range fileSize).map buf)

def finalPath (path : Bytes) : Bytes :=
  ascii "public" ++ path ++ if path.getLast? = some 47 then ascii "index.html" else []

/-- `handle_get_method` from the call of `stat` on. -/
def serve (files : Files) (path : Bytes) : Except Halt (List Bytes) :=
  match files.stat path with
  | .missing => .ok [http404Content]
  | .special => .ok [http404Content]
  | .regular size => do
    let headers ← sendHeaders path size
    let contents ← copyFileContents files path size
    return headers ++ [contents]

/-- `none` is a null pointer. -/
def handleGetMethod (files : Files) : Option Bytes → Except Halt (List Bytes)
  | none => .error .undefined
  | some path => if LINE_SZ ≤ (finalPath path).length then .error .undefined else serve files (finalPath path)

/-- The line ends at a byte of 0. -/
def handleHttpMethod (files : Files) (methodBuffer : Bytes) : Except Halt (List Bytes) :=
  match strtok SP (methodBuffer.takeWhile (· != 0)) with
  | none => .error .undefined
  | some (method, saveptr) =>
    let path := (strtok SP saveptr).map Prod.fst
    if method.map toLower = ascii "get" then handleGetMethod files path else .ok [unimplementedContent]

/-- The buffers of the response to what is in the buffer of a read. -/
def handleClientRequest (files : Files) (buf : Bytes) : Except Halt (List Bytes) :=
  match getLine LINE_SZ buf with
  | none => .error .exited
  | some line => handleHttpMethod files line

variable {files : Files} {p line path : Bytes} {response : List Bytes} {n : Nat}

/-! ## The first line -/

theorem getLine_eq : ∀ (n : Nat) (s : Bytes),
    getLine n s = (find [CR, LF] s).bind fun k => if k < n then some (s.take k) else none
  | 0, s => by
    unfold getLine
    cases find [CR, LF] s <;> rfl
  | n + 1, [] => rfl
  | n + 1, b :: s => by
    unfold getLine
    split
    · rename_i hcrlf
      obtain ⟨rfl, hlf⟩ := hcrlf
      obtain ⟨s', rfl⟩ := List.head?_eq_some_iff.mp hlf
      have hself : find [CR, LF] (CR :: LF :: s') = some 0 := find_self [CR, LF] s'
      rw [hself]
      rfl
    · rename_i hcrlf
      have hne : ∀ v, b :: s ≠ [CR, LF] ++ v := by
        rintro v hv
        obtain ⟨rfl, rfl⟩ := List.cons.inj hv
        exact hcrlf ⟨rfl, rfl⟩
      rw [find_cons hne rfl, getLine_eq n s]
      cases find [CR, LF] s with
      | none => rfl
      | some k =>
        simp only [Option.bind_some, Option.map_some, Nat.add_lt_add_iff_right, List.take_succ_cons]
        split <;> rfl

/-- What has not been read is no end of a line. -/
theorem find_readBuffer (p : Bytes) : find [CR, LF] (readBuffer p) = find [CR, LF] p := by
  have hzero : ∀ m, ∀ v, CR :: List.replicate m (0 : UInt8) ≠ [CR, LF] ++ v := by
    rintro m v hv
    have hlf : LF ∈ List.replicate m (0 : UInt8) := by
      rw [(List.cons.inj hv).2]
      exact List.mem_cons_self
    exact absurd (List.eq_of_mem_replicate hlf) (by decide)
  have hzeros : ∀ m, find [CR, LF] (List.replicate m (0 : UInt8)) = none := by
    intro m
    refine find_none fun b hb => ?_
    rw [List.eq_of_mem_replicate hb]
    decide
  unfold readBuffer
  generalize READ_SZ - p.length = m
  induction p with
  | nil => exact hzeros m
  | cons b p ih =>
    by_cases hcrlf : ∃ v, b :: p = [CR, LF] ++ v
    · obtain ⟨v, hv⟩ := hcrlf
      rw [hv, List.append_assoc, find_self, find_self]
    · have hne : ∀ v, b :: p ≠ [CR, LF] ++ v := fun v hv => hcrlf ⟨v, hv⟩
      have hne' : ∀ v, b :: p ++ List.replicate m 0 ≠ [CR, LF] ++ v := by
        cases p with
        | nil =>
          rintro v hv
          obtain ⟨rfl, hrest⟩ := List.cons.inj hv
          exact hzero m v hv
        | cons c p =>
          rintro v hv
          obtain ⟨rfl, hrest⟩ := List.cons.inj hv
          obtain ⟨rfl, -⟩ := List.cons.inj hrest
          exact hne p rfl
      rw [find_cons hne' (List.cons_append ..), find_cons hne rfl, ih]

theorem take_readBuffer (hn : n ≤ p.length) : (readBuffer p).take n = p.take n := by
  rw [readBuffer, List.take_append_of_le_length hn]

theorem getLine_readBuffer (hline : getLine n (readBuffer p) = some line) :
    find [CR, LF] p = some line.length ∧ line <+: p ∧ line.length < n := by
  rw [getLine_eq, find_readBuffer] at hline
  obtain ⟨k, hk, hline⟩ := Option.bind_eq_some_iff.mp hline
  have hle : k ≤ p.length := Nat.le_trans (Nat.le_add_right _ _) (find_le hk)
  split at hline
  · rename_i hlt
    cases hline
    rw [take_readBuffer hle, List.length_take_of_le hle]
    exact ⟨hk, List.take_prefix k p, hlt⟩
  · cases hline

theorem getLine_of_find (hk : find [CR, LF] p = some line.length) (hline : line <+: p) (hn : line.length < n) :
    getLine n (readBuffer p) = some line := by
  rw [getLine_eq, find_readBuffer, hk, Option.bind_some, if_pos hn, take_readBuffer hline.length_le,
    List.prefix_iff_eq_take.mp hline |>.symm]

/-! ## The words of the line -/

theorem handleHttpMethod_eq (files : Files) (line : Bytes) : handleHttpMethod files line =
    match words SP (line.takeWhile (· != 0)) with
    | [] => .error .undefined
    | method :: args =>
      if method.map toLower = ascii "get" then handleGetMethod files args.head? else .ok [unimplementedContent] := by
  unfold handleHttpMethod
  cases hs : strtok SP (line.takeWhile (· != 0)) with
  | none => rw [strtok_eq_none_iff.mp hs]
  | some x =>
    obtain ⟨method, saveptr⟩ := x
    rw [words_of_strtok hs]
    dsimp only
    rw [fst_strtok]

/-! ## What is answered -/

/-- What there is at `path` is answered with `response`. -/
def Serves (files : Files) (path : Bytes) (response : List Bytes) : Prop :=
  ((∀ size, files.stat path ≠ .regular size) ∧ response = [http404Content]) ∨
  ∃ size contentType buf, files.stat path = .regular size ∧
    contentTypes.lookup (getFilenameExt (path.map toLower)) = some contentType ∧ files.buffer path = some buf ∧
    response = [ascii "HTTP/1.0 200 OK\r\n", SERVER_STRING, contentType,
      ascii "content-length: " ++ toDecimal size ++ [CR, LF], [CR, LF], (List.range size).map buf]

theorem serve_regular {size : Nat} (hstat : files.stat path = .regular size) : serve files path =
    match contentTypes.lookup (getFilenameExt (path.map toLower)) with
    | none => .error .undefined
    | some contentType =>
      match files.buffer path with
      | none => .error .exited
      | some buf => .ok [ascii "HTTP/1.0 200 OK\r\n", SERVER_STRING, contentType,
          ascii "content-length: " ++ toDecimal size ++ [CR, LF], [CR, LF], (List.range size).map buf] := by
  unfold serve sendHeaders copyFileContents
  rw [hstat]
  cases contentTypes.lookup (getFilenameExt (path.map toLower)) with
  | none => rfl
  | some contentType => cases files.buffer path <;> rfl

theorem serve_other (hstat : ∀ size, files.stat path ≠ .regular size) : serve files path = .ok [http404Content] := by
  unfold serve
  cases hs : files.stat path with
  | missing => rfl
  | special => rfl
  | regular size => exact absurd hs (hstat size)

theorem serve_iff : serve files path = .ok response ↔ Serves files path response := by
  unfold Serves
  by_cases hregular : ∃ size, files.stat path = .regular size
  · obtain ⟨size, hstat⟩ := hregular
    rw [serve_regular hstat]
    constructor
    · intro h
      split at h
      · cases h
      · rename_i contentType htype
        split at h
        · cases h
        · rename_i buf hbuf
          cases h
          exact .inr ⟨size, contentType, buf, hstat, htype, hbuf, rfl⟩
    · rintro (⟨hother, -⟩ | ⟨size', contentType, buf, hstat', htype, hbuf, rfl⟩)
      · exact absurd hstat (hother size)
      · cases hstat.symm.trans hstat'
        rw [htype, hbuf]
  · have hother : ∀ size, files.stat path ≠ .regular size := fun size hstat => hregular ⟨size, hstat⟩
    rw [serve_other hother]
    constructor
    · intro h
      cases h
      exact .inl ⟨hother, rfl⟩
    · rintro (⟨-, rfl⟩ | ⟨size, -, -, hstat, -⟩)
      · rfl
      · exact absurd hstat (hother size)

theorem handleGetMethod_some (h : (finalPath path).length < LINE_SZ) :
    handleGetMethod files (some path) = serve files (finalPath path) := by
  rw [handleGetMethod, if_neg (Nat.not_le.mpr h)]

theorem of_handleGetMethod {arg : Option Bytes} (h : handleGetMethod files arg ≠ .error .undefined) :
    ∃ path, arg = some path ∧ (finalPath path).length < LINE_SZ ∧
      handleGetMethod files arg = serve files (finalPath path) := by
  cases arg with
  | none => exact absurd rfl h
  | some path =>
    by_cases hlong : LINE_SZ ≤ (finalPath path).length
    · rw [handleGetMethod, if_pos hlong] at h
      exact absurd rfl h
    · have hshort := Nat.not_le.mp hlong
      exact ⟨path, rfl, hshort, handleGetMethod_some hshort⟩

/-- The line that is copied, if it ends. -/
def FirstLine (p line : Bytes) : Prop := find [CR, LF] p = some line.length ∧ line <+: p ∧ line.length < LINE_SZ

theorem handleClientRequest_of_line (h : FirstLine p line) :
    handleClientRequest files (readBuffer p) = handleHttpMethod files line := by
  obtain ⟨hfind, hline, hlt⟩ := h
  rw [handleClientRequest, getLine_of_find hfind hline hlt]

theorem handleClientRequest_cases (files : Files) (p : Bytes) :
    (∃ line, FirstLine p line ∧ handleClientRequest files (readBuffer p) = handleHttpMethod files line) ∨
    (∀ line, ¬FirstLine p line) ∧ handleClientRequest files (readBuffer p) = .error .exited := by
  cases hline : getLine LINE_SZ (readBuffer p) with
  | none =>
    refine .inr ⟨fun line h => ?_, by rw [handleClientRequest, hline]⟩
    obtain ⟨hfind, hprefix, hlt⟩ := h
    rw [getLine_of_find hfind hprefix hlt] at hline
    cases hline
  | some line =>
    have h : FirstLine p line := getLine_readBuffer hline
    exact .inl ⟨line, h, handleClientRequest_of_line h⟩

/-- The line asks for the file at `path`. -/
def Asks (line path : Bytes) : Prop :=
  ∃ method args, words SP (line.takeWhile (· != 0)) = method :: path :: args ∧ method.map toLower = ascii "get" ∧
    (finalPath path).length < LINE_SZ

theorem handleHttpMethod_of_asks (h : Asks line path) :
    handleHttpMethod files line = serve files (finalPath path) := by
  obtain ⟨method, args, hwords, hget, hshort⟩ := h
  rw [handleHttpMethod_eq, hwords]
  dsimp only
  rw [if_pos hget, List.head?_cons, handleGetMethod_some hshort]

/-- The line has a method that is not GET. -/
def OtherMethod (line : Bytes) : Prop :=
  ∃ method args, words SP (line.takeWhile (· != 0)) = method :: args ∧ method.map toLower ≠ ascii "get"

theorem handleHttpMethod_cases (files : Files) (line : Bytes) :
    (∃ path, Asks line path) ∨ OtherMethod line ∨
    (∀ path, ¬Asks line path) ∧ ¬OtherMethod line ∧ handleHttpMethod files line = .error .undefined := by
  by_cases hasks : ∃ path, Asks line path
  · exact .inl hasks
  · by_cases hother : OtherMethod line
    · exact .inr (.inl hother)
    · have hno : ∀ path, ¬Asks line path := fun path h => hasks ⟨path, h⟩
      refine .inr (.inr ⟨hno, hother, ?_⟩)
      rw [handleHttpMethod_eq]
      cases hwords : words SP (line.takeWhile (· != 0)) with
      | nil => rfl
      | cons method args =>
        dsimp only
        by_cases hget : method.map toLower = ascii "get"
        · rw [if_pos hget]
          by_contra hundef
          obtain ⟨path, hpath, hshort, -⟩ := of_handleGetMethod hundef
          obtain ⟨rest, rfl⟩ := List.head?_eq_some_iff.mp hpath
          exact hno path ⟨method, rest, hwords, hget, hshort⟩
        · exact absurd ⟨method, args, hwords, hget⟩ hother

theorem handleHttpMethod_of_other (h : OtherMethod line) :
    handleHttpMethod files line = .ok [unimplementedContent] := by
  obtain ⟨method, args, hwords, hget⟩ := h
  rw [handleHttpMethod_eq, hwords]
  dsimp only
  rw [if_neg hget]

/-- Behind a whole first line there is one of three ends. -/
theorem handleClientRequest_error {h : Halt} (herror : handleClientRequest files (readBuffer p) = .error h) :
    h = .exited ∨ h = .undefined := by
  have hserve : ∀ path, serve files path = .error h → h = .exited ∨ h = .undefined := by
    intro path hserve
    by_cases hregular : ∃ size, files.stat path = .regular size
    · obtain ⟨size, hstat⟩ := hregular
      rw [serve_regular hstat] at hserve
      split at hserve
      · cases hserve
        exact .inr rfl
      · split at hserve
        · cases hserve
          exact .inl rfl
        · cases hserve
    · rw [serve_other fun size hstat => hregular ⟨size, hstat⟩] at hserve
      cases hserve
  rcases handleClientRequest_cases files p with ⟨line, -, hline⟩ | ⟨-, hexit⟩
  · rw [hline] at herror
    rcases handleHttpMethod_cases files line with ⟨path, hasks⟩ | hother | ⟨-, -, hundef⟩
    · rw [handleHttpMethod_of_asks hasks] at herror
      exact hserve _ herror
    · rw [handleHttpMethod_of_other hother] at herror
      cases herror
    · rw [hundef] at herror
      cases herror
      exact .inr rfl
  · rw [hexit] at herror
    cases herror
    exact .inl rfl

/-- Lines, a blank line and a body, as a client reads them. -/
structure Framed (response : Bytes) (status : Bytes) (lines : List Bytes) (body : Bytes) : Prop where
  bytes : response = (status :: lines).flatMap (· ++ [CR, LF]) ++ [CR, LF] ++ body
  lines_ne : ∀ l ∈ status :: lines, l ≠ []
  lines_free : ∀ l ∈ status :: lines, ∀ b ∈ l, b ≠ CR
  length : status = ascii "HTTP/1.0 200 OK" → ascii "content-length: " ++ toDecimal body.length ∈ lines

theorem framed_404 : Framed http404Content (ascii "HTTP/1.0 404 Not Found") [ascii "Content-type: text/html"]
    (http404Content.drop 51) :=
  ⟨by decide +kernel, by decide +kernel, by decide +kernel, fun h => absurd h (by decide +kernel)⟩

theorem framed_400 : Framed unimplementedContent (ascii "HTTP/1.0 400 Bad Request")
    [ascii "Content-type: text/html"] (unimplementedContent.drop 53) :=
  ⟨by decide +kernel, by decide +kernel, by decide +kernel, fun h => absurd h (by decide +kernel)⟩

/-- Each content type is one line. -/
theorem contentTypes_lines : ∀ x ∈ contentTypes, ∃ l : Bytes, x.2 = l ++ [CR, LF] ∧ l ≠ [] ∧ ∀ b ∈ l, b ≠ CR := by
  have hlines : ∀ x ∈ contentTypes, x.2 = x.2.dropLast.dropLast ++ [CR, LF] ∧ x.2.dropLast.dropLast ≠ [] ∧
      ∀ b ∈ x.2.dropLast.dropLast, b ≠ CR := by decide +kernel
  exact fun x hx => ⟨_, hlines x hx⟩

theorem framed_200 {contentType : Bytes} {size : Nat} {body : Bytes}
    (htype : contentTypes.lookup (getFilenameExt (path.map toLower)) = some contentType) (hbody : body.length = size) :
    ∃ lines, Framed [ascii "HTTP/1.0 200 OK\r\n", SERVER_STRING, contentType,
      ascii "content-length: " ++ toDecimal size ++ [CR, LF], [CR, LF], body].flatten
      (ascii "HTTP/1.0 200 OK") lines body := by
  obtain ⟨l₁, l₂, htypes, -⟩ := List.lookup_eq_some_iff.mp htype
  have hmem : (getFilenameExt (path.map toLower), contentType) ∈ contentTypes := by
    rw [htypes]
    exact List.mem_append_right _ List.mem_cons_self
  obtain ⟨l, hl, hne, hfree⟩ := contentTypes_lines _ hmem
  have hstatus : ascii "HTTP/1.0 200 OK\r\n" = ascii "HTTP/1.0 200 OK" ++ [CR, LF] := by decide +kernel
  have hserver : SERVER_STRING = ascii "Server: zerohttpd/0.1" ++ [CR, LF] := by decide +kernel
  have hname : ascii "content-length: " ≠ [] := by decide +kernel
  have hnameFree : ∀ b ∈ ascii "content-length: ", b ≠ CR := by decide +kernel
  refine ⟨[ascii "Server: zerohttpd/0.1", l, ascii "content-length: " ++ toDecimal size], ?_, ?_, ?_, ?_⟩
  · rw [show contentType = l ++ [CR, LF] from hl, hstatus, hserver]
    simp only [List.flatten_cons, List.flatten_nil, List.flatMap_cons, List.flatMap_nil, List.append_nil,
      List.append_assoc]
  · intro x hx
    simp only [List.mem_cons, List.not_mem_nil, or_false] at hx
    rcases hx with rfl | rfl | rfl | rfl
    · decide +kernel
    · decide +kernel
    · exact hne
    · exact List.append_ne_nil_of_left_ne_nil hname _
  · intro x hx
    simp only [List.mem_cons, List.not_mem_nil, or_false] at hx
    rcases hx with rfl | rfl | rfl | rfl
    · decide +kernel
    · decide +kernel
    · exact hfree
    · intro b hb
      rcases List.mem_append.mp hb with hb | hb
      · exact hnameFree b hb
      · rintro rfl
        exact absurd (toDecimal_digit hb) (by decide)
  · intro _
    rw [hbody]
    simp

/-- Every answer is a status line of three, header lines, one blank line and a body; and if it is a file's, the length
that is announced is that of the body. -/
theorem framed (h : handleClientRequest files (readBuffer p) = .ok response) : ∃ status lines body,
    status ∈ [ascii "HTTP/1.0 200 OK", ascii "HTTP/1.0 404 Not Found", ascii "HTTP/1.0 400 Bad Request"] ∧
    Framed response.flatten status lines body := by
  rcases handleClientRequest_cases files p with ⟨line, -, hline⟩ | ⟨-, hexit⟩
  · rw [hline] at h
    rcases handleHttpMethod_cases files line with ⟨path, hasks⟩ | hother | ⟨-, -, hundef⟩
    · rw [handleHttpMethod_of_asks hasks] at h
      rcases serve_iff.mp h with ⟨-, rfl⟩ | ⟨size, contentType, buf, -, htype, -, rfl⟩
      · rw [List.flatten_singleton]
        exact ⟨_, _, _, List.mem_cons_of_mem _ List.mem_cons_self, framed_404⟩
      · have hlen : ((List.range size).map buf).length = size := by rw [List.length_map, List.length_range]
        obtain ⟨lines, hframed⟩ := framed_200 htype hlen
        exact ⟨_, lines, _, List.mem_cons_self, hframed⟩
    · rw [handleHttpMethod_of_other hother] at h
      cases h
      rw [List.flatten_singleton]
      exact ⟨_, _, _, List.mem_cons_of_mem _ (List.mem_cons_of_mem _ List.mem_cons_self), framed_400⟩
    · rw [hundef] at h
      cases h
  · rw [hexit] at h
    cases h

/-- A file of two bytes. -/
theorem framed_file :
    let files : Files := { stat := fun path => if path = ascii "public/a.txt" then .regular 2 else .missing
                           buffer := fun _ => some fun i => if i = 0 then 104 else 105 }
    ∃ response status lines body,
      handleClientRequest files (readBuffer (ascii "GET /a.txt HTTP/1.0\r\n\r\n")) = .ok response ∧
      status ∈ [ascii "HTTP/1.0 200 OK", ascii "HTTP/1.0 404 Not Found", ascii "HTTP/1.0 400 Bad Request"] ∧
      Framed response.flatten status lines body := by
  intro files
  cases hr : handleClientRequest files (readBuffer (ascii "GET /a.txt HTTP/1.0\r\n\r\n")) with
  | error e =>
    have hok : (handleClientRequest files (readBuffer (ascii "GET /a.txt HTTP/1.0\r\n\r\n"))).isOk = true := by
      decide +kernel
    rw [hr] at hok
    cases hok
  | ok response =>
    obtain ⟨status, lines, body, hstatus, hframed⟩ := framed hr
    exact ⟨response, status, lines, body, rfl, hstatus, hframed⟩

end IOContext.ZeroHttpd
