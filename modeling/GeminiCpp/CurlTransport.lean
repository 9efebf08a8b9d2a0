import GeminiCpp.Transport
import Mathlib.Data.List.DropRight

/-! The transport over libcurl (`curl_transport.cpp`). libcurl is outside of the library: one
transfer of it is a script of the calls that it makes of the two callbacks, and a result. -/
namespace GeminiCpp
open Traced

/-- `CURLcode`. -/
inductive CurlCode
  | ok
  | writeError
  | operationTimedout
  | other (code : ℕ)
deriving DecidableEq, Repr

/-- What `curl_easy_perform` does. A body call comes with the response code that
`curl_easy_getinfo` gives during the call. A transfer whose write callback does not take all of
its bytes ends there with `CURLE_WRITE_ERROR`. -/
inductive Transfer
  | done (rc : CurlCode) (status : ℤ) (errorBuffer : Bytes)
  | header (line : Bytes) (rest : Transfer)
  | body (status : ℤ) (data : Bytes) (rest : Transfer)

/-- The options of a transfer that depend on the request. -/
structure CurlOptions where
  url : Bytes
  httpHeader : List Bytes
  /-- Seconds below one byte per second after which a stream is given up. -/
  lowSpeedTime : Option ℤ
  timeoutMs : Option ℤ
  httpGet : Bool
  postFields : Option Bytes
  customRequest : Option Bytes

/-- The functions of libcurl, in a world `ω`. -/
structure Curl (ω : Type) where
  /-- Whether `curl_easy_init` gave this thread a handle. -/
  easyInit : ω → Bool × ω
  /-- `curl_slist_append`; false for a null pointer. -/
  slistAppend : Bytes → ω → Bool × ω
  easyPerform : CurlOptions → ω → Transfer × ω
  easyStrerror : CurlCode → Bytes

/-- What a C function sees of a string. -/
def cStr (s : Bytes) : Bytes := s.takeWhile (· ≠ 0)

/-- `std::tolower` in the C locale. -/
def toLower (b : UInt8) : UInt8 := if 0x41 ≤ b ∧ b ≤ 0x5A then b + 0x20 else b

/-- Assigns an entry of a `std::map`. -/
def setHeader (headers : HttpHeaders) (name value : Bytes) : HttpHeaders :=
  (name, value) :: headers.filter fun header => header.1 ≠ name

def trimFront (s : Bytes) : Bytes := s.dropWhile fun b => b = space ∨ b = 0x09

def trimBack (s : Bytes) : Bytes := s.rdropWhile fun b => b = cr ∨ b = lf ∨ b = space

/-- Name and value of a header line that has a colon. -/
def headerField (line : Bytes) : Option (Bytes × Bytes) :=
  match line.findIdx? (· = colon) with
  | none => none
  | some i => some ((line.take i).map toLower, trimBack (trimFront (line.drop (i + 1))))

/-- The first line of a response. -/
def isStatusLine (line : Bytes) : Bool := startsWith line (ascii "HTTP/")

namespace CurlTransport

/-- What the callbacks share with `perform`. -/
structure Context where
  response : HttpResponse
  aborted : Bool

namespace Context

def init : Context :=
  { response := { status := 0, headers := [], body := [] }, aborted := false }

def append (ctx : Context) (data : Bytes) : Context :=
  { ctx with response := { ctx.response with body := ctx.response.body ++ data } }

def abort (ctx : Context) : Context := { ctx with aborted := true }

/-- `on_header` always takes the whole line. -/
def onHeader (ctx : Context) (line : Bytes) : Context :=
  if isStatusLine line then { ctx with response := { ctx.response with headers := [] } }
  else
    match headerField line with
    | none => ctx
    | some (name, value) =>
      { ctx with response := { ctx.response with
          headers := setHeader ctx.response.headers name value } }

end Context

variable {ω τ π : Type}

/-- A callback on the pieces of a body, which keeps a state `π`. -/
abbrev ChunkCallback (π σ : Type) := π → Bytes → Program σ (Bool × π)

/-- A response code for which a streamed body goes to the callback. -/
def isSuccess (status : ℤ) : Bool := 200 ≤ status && status < 300

/-- The number of bytes that `on_body` takes. -/
def onBody (onChunk : Option (ChunkCallback π (τ × ω))) (status : ℤ) (data : Bytes)
    (ctx : Context) (p : π) : Program (τ × ω) (ℕ × Context × π) :=
  match onChunk with
  | none => return (data.length, ctx.append data, p)
  | some onChunk =>
    if isSuccess status then do
      Prog.emit (.bytes data)
      let (go, p) ← onChunk p data
      if go then return (data.length, ctx, p) else return (0, ctx.abort, p)
    else return (data.length, ctx.append data, p)

/-- How a transfer ended. -/
structure Ending where
  rc : CurlCode
  status : ℤ
  errorBuffer : Bytes

/-- `curl_easy_perform` with the two callbacks. -/
def easyPerform (onChunk : Option (ChunkCallback π (τ × ω))) :
    Transfer → Context → π → Program (τ × ω) (Ending × Context × π)
  | .done rc status errorBuffer, ctx, p => return (⟨rc, status, errorBuffer⟩, ctx, p)
  | .header line rest, ctx, p => easyPerform onChunk rest (ctx.onHeader line) p
  | .body status data rest, ctx, p => do
    let (taken, ctx, p) ← onBody onChunk status data ctx p
    if taken = data.length then easyPerform onChunk rest ctx p
    else return (⟨.writeError, status, []⟩, ctx, p)

variable (curl : Curl ω)

/-- What `perform` returns after the transfer. -/
def conclude (ending : Ending) (ctx : Context) : Result HttpResponse :=
  if ending.rc ≠ .ok then
    if ctx.aborted then
      .error (makeError .cancelled (ascii "request cancelled by caller"))
    else
      let message := if ending.errorBuffer ≠ [] then ending.errorBuffer
        else curl.easyStrerror ending.rc
      let code := if ending.rc = .operationTimedout then .timeout else .transport
      .error (makeError code (ascii "curl: " ++ message))
  else .ok { ctx.response with status := ending.status }

/-- The loop that builds the list of headers. -/
def appendHeaders : List (Bytes × Bytes) → ω → Bool × ω
  | [], w => (true, w)
  | (name, value) :: headers, w =>
    match curl.slistAppend (cStr (name ++ ascii ": " ++ value)) w with
    | (true, w) => appendHeaders headers w
    | (false, w) => (false, w)

def options (request : HttpRequest) (streaming : Bool) : CurlOptions :=
  let get := request.method = ascii "GET"
  { url := cStr request.url
    httpHeader := request.headers.map fun (name, value) => cStr (name ++ ascii ": " ++ value)
    lowSpeedTime := if streaming then some (max 1 (request.timeout.tdiv 1000)) else none
    timeoutMs := if streaming then none else some request.timeout
    httpGet := get
    postFields := if get then none else some request.body
    customRequest := if get ∨ request.method = ascii "POST" then none
      else some (cStr request.method) }

/-- `perform` up to the transfer itself. -/
def prepare (request : HttpRequest) (streaming : Bool) (w : ω) : Result Transfer × ω :=
  match curl.easyInit w with
  | (false, w) => (.error (makeError .transport (ascii "curl_easy_init failed")), w)
  | (true, w) =>
    match appendHeaders curl request.headers w with
    | (false, w) => (.error (makeError .transport (ascii "curl_slist_append failed")), w)
    | (true, w) =>
      let (transfer, w) := curl.easyPerform (options request streaming) w
      (.ok transfer, w)

/-- `perform` from the transfer on. -/
def finish (onChunk : Option (ChunkCallback π (τ × ω))) (transfer : Transfer) (ctx : Context)
    (p : π) : Program (τ × ω) (Result HttpResponse × π) := do
  let (ending, ctx, p) ← easyPerform onChunk transfer ctx p
  return (conclude curl ending ctx, p)

def perform (request : HttpRequest) (onChunk : Option (ChunkCallback π (τ × ω))) (p : π) :
    Program (τ × ω) (Result HttpResponse × π) := do
  match ← Prog.lift (Prog.ask (prepare curl request onChunk.isSome)) with
  | .error e => return (.error e, p)
  | .ok transfer => finish curl onChunk transfer .init p

/-- `send`, with the events that are seen of it. -/
def send (request : HttpRequest) : Program ω (Result HttpResponse) := do
  Prog.emit (.http request)
  let (response, _) ← Prog.withLocals () (perform (π := Unit) curl request none ())
  Prog.emit (.response response)
  return response

/-- `send_streaming`, with the events that are seen of it. -/
def sendStreaming (request : HttpRequest) (onChunk : ChunkCallback π (τ × ω)) (p : π) :
    Program (τ × ω) (Result HttpResponse × π) := do
  Prog.emit (.http request)
  let (response, p) ← perform curl request (some onChunk) p
  Prog.emit (.response response)
  return (response, p)

/-! What the two calls are to a client: a value, and a script. -/

/-- A unary transfer collects the whole body. -/
def collect : Transfer → Context → Result HttpResponse
  | .done rc status errorBuffer, ctx => conclude curl ⟨rc, status, errorBuffer⟩ ctx
  | .header line rest, ctx => collect rest (ctx.onHeader line)
  | .body _ data rest, ctx => collect rest (ctx.append data)

/-- A streamed transfer delivers the pieces of a success, and collects the body of an error. -/
def script : Transfer → Context → StreamScript
  | .done rc status errorBuffer, ctx => .done (conclude curl ⟨rc, status, errorBuffer⟩ ctx)
  | .header line rest, ctx => script rest (ctx.onHeader line)
  | .body status data rest, ctx =>
    if isSuccess status then
      -- no bytes are fewer than none, so libcurl does not see that an empty piece is refused
      .piece data (if data = [] then collect curl rest ctx.abort
        else conclude curl ⟨.writeError, status, []⟩ ctx.abort) (script rest ctx)
    else script rest (ctx.append data)

/-- The transport as its client sees it. -/
def transport : Transport ω :=
  { send := fun request w =>
      match prepare curl request false w with
      | (.error e, w) => (.error e, w)
      | (.ok transfer, w) => (collect curl transfer .init, w)
    sendStreaming := fun request w =>
      match prepare curl request true w with
      | (.error e, w) => (.done (.error e), w)
      | (.ok transfer, w) => (script curl transfer .init, w) }

end CurlTransport

/-- The body calls of a transfer. -/
def Transfer.bodies : Transfer → List (ℤ × Bytes)
  | .done .. => []
  | .header _ rest => rest.bodies
  | .body status data rest => (status, data) :: rest.bodies

/-- libcurl calls the write callback with no bytes only for an empty body. -/
def Transfer.Documented : Transfer → Prop
  | .done .. => True
  | .header _ rest => rest.Documented
  | .body _ data rest => (data = [] → rest.bodies = []) ∧ rest.Documented

/-- How a transfer ends that is not stopped. -/
def Transfer.ending : Transfer → CurlTransport.Ending
  | .done rc status errorBuffer => ⟨rc, status, errorBuffer⟩
  | .header _ rest => rest.ending
  | .body _ _ rest => rest.ending

namespace CurlTransport
variable {ω τ π : Type} (curl : Curl ω)

/-- The callback with the piece that it has refused next to its state. -/
def recording (onChunk : ChunkCallback π (τ × ω)) : ChunkCallback (π × Option Bytes) (τ × ω) :=
  fun p data => do
    let (go, q) ← onChunk p.1 data
    return (go, q, if go then none else some data)

/-- How a streamed call ends, by the piece that its callback has refused. -/
inductive Ends (request : HttpRequest) (w : ω) : Option Bytes → Result HttpResponse → Prop
  | unprepared {e : Error} {w' : ω} (hprepare : prepare curl request true w = (.error e, w')) :
    Ends request w none (.error e)
  | whole {transfer : Transfer} {w' : ω} {ctx : Context}
    (hprepare : prepare curl request true w = (.ok transfer, w')) (hctx : ctx.aborted = false) :
    Ends request w none (conclude curl transfer.ending ctx)
  | cancelled {data : Bytes} (hdata : data ≠ []) :
    Ends request w (some data)
      (.error (makeError .cancelled (ascii "request cancelled by caller")))
  /-- The body was empty, and libcurl goes on to its end. -/
  | unseen {transfer : Transfer} {w' : ω} {ctx : Context}
    (hprepare : prepare curl request true w = (.ok transfer, w')) (hctx : ctx.aborted = true) :
    Ends request w (some []) (conclude curl transfer.ending ctx)

/-- A transfer without a body only has headers and its end. -/
theorem finish_of_bodies_nil (onChunk : Option (ChunkCallback π (τ × ω)))
    {transfer : Transfer} (h : transfer.bodies = []) (ctx : Context) (p : π) :
    finish curl onChunk transfer ctx p = return (collect curl transfer ctx, p) := by
  induction transfer generalizing ctx with
  | done rc status errorBuffer => rfl
  | header line rest ih => exact ih h (ctx.onHeader line)
  | body status data rest ih => cases h

theorem finish_none (transfer : Transfer) (ctx : Context) (p : π) :
    finish (τ := τ) curl none transfer ctx p = return (collect curl transfer ctx, p) := by
  induction transfer generalizing ctx with
  | done rc status errorBuffer => rfl
  | header line rest ih => exact ih (ctx.onHeader line)
  | body status data rest ih =>
    have hrest := ih (ctx.append data)
    simpa [finish, easyPerform, onBody, collect] using hrest

/-- The loop of libcurl delivers the script of its transfer. -/
theorem finish_some (onChunk : ChunkCallback π (τ × ω)) {transfer : Transfer}
    (h : transfer.Documented) (ctx : Context) (p : π) :
    finish curl (some onChunk) transfer ctx p = deliver onChunk p (script curl transfer ctx) := by
  induction transfer generalizing ctx p with
  | done rc status errorBuffer => rfl
  | header line rest ih => exact ih h (ctx.onHeader line) p
  | body status data rest ih =>
    obtain ⟨hempty, hrest⟩ := h
    unfold finish easyPerform script onBody
    by_cases hstatus : isSuccess status
    · simp only [hstatus, if_true, bind_assoc, deliver]
      congr 1
      funext _
      congr 1
      funext ⟨go, p⟩
      cases go with
      | true => simpa [finish] using ih hrest ctx p
      | false =>
        by_cases hdata : data = []
        · subst hdata
          have hnone := finish_of_bodies_nil curl (some onChunk) (hempty rfl) ctx.abort p
          simpa [finish] using hnone
        · have hne : 0 ≠ data.length := fun h => hdata (List.length_eq_zero_iff.mp h.symm)
          simp [hdata, hne]
    · simpa [hstatus, finish] using ih hrest (ctx.append data) p

theorem perform_none (request : HttpRequest) (p : π) (s : τ × ω) :
    perform curl request none p s =
      ⟨[], (s.1, ((transport curl).send request s.2).2),
        .ok (((transport curl).send request s.2).1, p)⟩ := by
  rw [Prog.run_eq_iff, perform, Prog.wp_bind, Prog.wp_lift, Prog.wp_ask, Prog.then_ok]
  simp only [transport, Option.isSome_none]
  rcases prepare curl request false s.2 with ⟨e | transfer, w⟩
  · rfl
  · dsimp only
    rw [finish_none]
    rfl

theorem onHeader_aborted (ctx : Context) (line : Bytes) :
    (ctx.onHeader line).aborted = ctx.aborted := by
  unfold Context.onHeader
  split_ifs
  · rfl
  · split <;> rfl

theorem exists_collect (transfer : Transfer) (ctx : Context) :
    ∃ ctx' : Context, ctx'.aborted = ctx.aborted ∧
      collect curl transfer ctx = conclude curl transfer.ending ctx' := by
  induction transfer generalizing ctx with
  | done rc status errorBuffer => exact ⟨ctx, rfl, rfl⟩
  | header line rest ih =>
    obtain ⟨ctx', haborted, hcollect⟩ := ih (ctx.onHeader line)
    exact ⟨ctx', haborted.trans (onHeader_aborted ctx line), hcollect⟩
  | body status data rest ih => exact ih (ctx.append data)

/-- A call whose callback refuses a piece ends there, unless the piece is empty. -/
theorem wp_finish_recording {request : HttpRequest} {transfer rest : Transfer} {w w' : ω}
    (hprepare : prepare curl request true w = (.ok transfer, w'))
    (hrest : rest.Documented) (hending : rest.ending = transfer.ending)
    (onChunk : ChunkCallback π (τ × ω)) {ctx : Context} (hctx : ctx.aborted = false) (p : π)
    (s : τ × ω) :
    Prog.wp (finish curl (some (recording onChunk)) rest ctx (p, none)) s fun _ _ r =>
      ∀ response q, r = .ok (response, q) → Ends curl request w q.2 response := by
  induction rest generalizing ctx p s with
  | done rc status errorBuffer =>
    intro response q hr
    obtain ⟨rfl, rfl⟩ := Prod.mk.inj (Except.ok.inj hr)
    have hwhole : Ends curl request w none _ := .whole hprepare hctx
    rwa [← hending] at hwhole
  | header line rest ih => exact ih hrest hending ((onHeader_aborted ctx line).trans hctx) p s
  | body status data rest ih =>
    obtain ⟨hempty, hrest⟩ := hrest
    unfold finish easyPerform onBody
    by_cases hstatus : isSuccess status
    · simp only [hstatus, if_true, recording, bind_assoc, pure_bind, Prog.wp_bind, Prog.wp_emit,
        Prog.then_ok]
      rw [Prog.wp_iff]
      generalize onChunk p data s = ran
      obtain ⟨es, s', x | ⟨go, q⟩⟩ := ran
      · intro response q hr
        cases hr
      · cases go with
        | true => simpa [finish] using ih hrest hending hctx q s'
        | false =>
          by_cases hdata : data = []
          · subst hdata
            have hrun : Prog.wp (finish curl (some (recording onChunk)) rest ctx.abort
                (q, some [])) s' fun _ _ r => ∀ response q', r = .ok (response, q') →
                  Ends curl request w q'.2 response := by
              rw [finish_of_bodies_nil curl _ (hempty rfl)]
              intro response q' hr
              obtain ⟨rfl, rfl⟩ := Prod.mk.inj (Except.ok.inj hr)
              obtain ⟨ctx', haborted, hcollect⟩ := exists_collect curl rest ctx.abort
              have hunseen : Ends curl request w (some []) _ := .unseen hprepare haborted
              rwa [← hending, Transfer.ending, ← hcollect] at hunseen
            simpa [finish] using hrun
          · have hne : 0 ≠ data.length := fun h => hdata (List.length_eq_zero_iff.mp h.symm)
            have hcancelled : conclude curl ⟨.writeError, status, []⟩ ctx.abort =
                .error (makeError .cancelled (ascii "request cancelled by caller")) := rfl
            have hends : Ends curl request w (some data) _ := .cancelled hdata
            simpa [hne, hcancelled] using hends
    · have hwhole := @ih hrest hending (ctx.append data) hctx p s
      simpa [hstatus, finish] using hwhole

variable {curl}

/-- What holds of every transfer with the options of a call holds of the one of the call. -/
theorem of_prepare {P : Transfer → Prop} {request : HttpRequest} {streaming : Bool}
    (h : ∀ w, P (curl.easyPerform (options request streaming) w).1) {w w' : ω}
    {transfer : Transfer} (hprepare : prepare curl request streaming w = (.ok transfer, w')) :
    P transfer := by
  unfold prepare at hprepare
  rcases hinit : curl.easyInit w with ⟨_ | _, w₁⟩
  · rw [hinit] at hprepare
    cases hprepare
  · rcases happend : appendHeaders curl request.headers w₁ with ⟨_ | _, w₂⟩
    · simp only [hinit, happend] at hprepare
      cases hprepare
    · simp only [hinit, happend] at hprepare
      cases hprepare
      exact h _

theorem perform_some (h : ∀ o w, (curl.easyPerform o w).1.Documented) (request : HttpRequest)
    (onChunk : ChunkCallback π (τ × ω)) (p : π) :
    perform curl request (some onChunk) p =
      Prog.lift (Prog.ask ((transport curl).sendStreaming request)) >>= deliver onChunk p := by
  funext s
  have hdelivered : (Prog.lift (Prog.ask ((transport curl).sendStreaming request)) >>=
      deliver onChunk p) s = deliver onChunk p ((transport curl).sendStreaming request s.2).1
        (s.1, ((transport curl).sendStreaming request s.2).2) := rfl
  rw [hdelivered, Prog.run_eq_iff, perform, Prog.wp_bind, Prog.wp_lift, Prog.wp_ask, Prog.then_ok]
  simp only [transport, Option.isSome_some]
  rcases hprepare : prepare curl request true s.2 with ⟨e | transfer, w⟩
  · rfl
  · dsimp only
    rw [finish_some curl onChunk (of_prepare (h _) hprepare)]
    rfl

theorem wp_sendStreaming_recording (h : ∀ o w, (curl.easyPerform o w).1.Documented)
    (request : HttpRequest) (onChunk : ChunkCallback π (τ × ω)) (p : π) (s : τ × ω) :
    Prog.wp (sendStreaming curl request (recording onChunk) (p, none)) s fun _ _ r =>
      ∀ response q, r = .ok (response, q) → Ends curl request s.2 q.2 response := by
  simp only [sendStreaming, perform, Option.isSome_some, Prog.wp_bind, Prog.wp_emit, Prog.then_ok,
    Prog.wp_lift, Prog.wp_ask]
  rcases hprepare : prepare curl request true s.2 with ⟨e | transfer, w'⟩
  · intro response q hr
    obtain ⟨rfl, rfl⟩ := Prod.mk.inj (Except.ok.inj hr)
    exact .unprepared hprepare
  · refine Prog.wp_mono (wp_finish_recording curl hprepare (of_prepare (h _) hprepare) rfl onChunk
      rfl p (s.1, w')) fun es s' r hends => ?_
    cases r with
    | error x => exact fun response q hr => by cases hr
    | ok result =>
      intro response q hr
      obtain ⟨rfl, rfl⟩ := Prod.mk.inj (Except.ok.inj hr)
      exact hends _ _ rfl

/-- The transport does what a client may assume of one: it delivers a streamed body in order, and
nothing after the callback has refused a piece, which cancels the call if the piece has bytes. -/
theorem transport_refines (h : ∀ o w, (curl.easyPerform o w).1.Documented)
    (request : HttpRequest) :
    send curl request = (transport curl).run request ∧
    (∀ (onChunk : ChunkCallback π (τ × ω)) (p : π),
      sendStreaming curl request onChunk p =
        (transport curl).runStreaming request onChunk p) ∧
    ∀ (onChunk : ChunkCallback π (τ × ω)) (p : π) (s : τ × ω),
      Prog.wp (sendStreaming curl request (recording onChunk) (p, none)) s fun _ _ r =>
        ∀ response q, r = .ok (response, q) → Ends curl request s.2 q.2 response := by
  refine ⟨?_, ?_, wp_sendStreaming_recording h request⟩
  · funext w
    unfold send Transport.run
    rw [Prog.run_eq_iff]
    simp only [Prog.wp_bind, Prog.wp_emit, Prog.then_ok, Prog.wp_withLocals]
    rw [Prog.wp_iff, perform_none]
    rfl
  · intro onChunk p
    unfold sendStreaming Transport.runStreaming
    simp only [perform_some h, bind_assoc]

end CurlTransport

/-- A libcurl whose transfers are all the same. -/
def Curl.answering (transfer : Transfer) : Curl Unit :=
  { easyInit := fun w => (true, w)
    slistAppend := fun _ w => (true, w)
    easyPerform := fun _ w => (transfer, w)
    easyStrerror := fun _ => ascii "Failed writing received data to disk/application" }

/-- A stream with a body in two pieces. -/
theorem CurlTransport.transport_refines_twoPieces :
    let request : HttpRequest := { method := ascii "POST", url := ascii "http://localhost/"
                                   headers := [], body := [], timeout := 1000 }
    let transfer := Transfer.header (ascii "HTTP/1.1 200 OK\r\n") (.header [cr, lf]
      (.body 200 (ascii "data: 1\n") (.body 200 [lf] (.done .ok 200 []))))
    let curl := Curl.answering transfer
    send curl request = (transport curl).run request ∧
    (∀ (onChunk : ChunkCallback Unit (Unit × Unit)) (p : Unit),
      sendStreaming curl request onChunk p =
        (transport curl).runStreaming request onChunk p) ∧
    ∀ (onChunk : ChunkCallback Unit (Unit × Unit)) (p : Unit) (s : Unit × Unit),
      Prog.wp (sendStreaming curl request (recording onChunk) (p, none)) s fun _ _ r =>
        ∀ response q, r = .ok (response, q) → Ends curl request s.2 q.2 response := by
  intro request transfer curl
  have hdocumented : transfer.Documented :=
    ⟨(fun h => by cases h), (fun h => by cases h), trivial⟩
  exact transport_refines (fun _ _ => hdocumented) request

end GeminiCpp
