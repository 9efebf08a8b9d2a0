import GeminiCpp.Client.Attempts
import GeminiCpp.Client.Effects
import GeminiCpp.CurlTransport.Received

/-! A call that the server refuses, or that the network fails, ends in the same way whether it is
streamed or not: the body of an error response is no stream. -/
namespace GeminiCpp
open Traced Traced.Prog

namespace Client
variable {ω τ τ' α : Type} (c : Client ω)

end Client

/-- The server has answered with an error, or there was no answer. -/
structure Transfer.Refused (transfer : Transfer) : Prop where
  bodies : ∀ body ∈ transfer.bodies, CurlTransport.isSuccess body.1 = false
  ending : transfer.ending.rc = .ok → CurlTransport.isSuccess transfer.ending.status = false

namespace CurlTransport
variable {ω : Type} {curl : Curl ω}

/-- libcurl refuses a streamed request, in the same way as another one that is not streamed. -/
structure Refuses (curl : Curl ω) (streamed unary : HttpRequest) : Prop where
  refused : ∀ w, (curl.easyPerform (options streamed true) w).1.Refused
  /-- In the same world the two requests have the same outcome. -/
  same : ∀ w, curl.easyPerform (options streamed true) w = curl.easyPerform (options unary false) w

theorem Refuses.prepare {request request' : HttpRequest} (h : Refuses curl request request')
    (hheaders : request.headers = request'.headers) (w : ω) :
    prepare curl request true w = prepare curl request' false w := by
  unfold CurlTransport.prepare
  rw [hheaders]
  rcases curl.easyInit w with ⟨_ | _, w₁⟩
  · rfl
  · rcases happend : appendHeaders curl request'.headers w₁ with ⟨_ | _, w₂⟩
    · simp only [happend]
    · simp only [happend, h.same]

end CurlTransport

namespace Client
variable {ω : Type} {curl : Curl ω} (c : Client ω)

variable {c} {answer : Result HttpResponse} {r : MayThrow (Result GenerateResponse)} {w w' : ω}

variable (c)

/-- libcurl refuses the calls of a client, the streamed ones as the others. -/
def Refused (curl : Curl ω) : Prop := ∀ body,
  CurlTransport.Refuses curl
    (c.makeRequest (c.endpoint (ascii "streamGenerateContent") true) body)
    (c.makeRequest (c.endpoint (ascii "generateContent") false) body)

end Client

end GeminiCpp
