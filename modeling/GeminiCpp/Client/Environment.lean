import GeminiCpp.Client.Basic

/-! The options that the environment gives to a client (`ClientOptions::from_env`). -/
namespace GeminiCpp

/-- `std::getenv`, with a fallback for a variable that is not set or empty. -/
def envOr (getenv : Bytes → Option Bytes) (name fallback : Bytes) : Bytes :=
  match getenv name with
  | some value => if value = [] then fallback else value
  | none => fallback

/-- The default member initialisers. -/
def RetryPolicy.default : RetryPolicy :=
  { maxAttempts := 4, initialBackoff := 500, maxBackoff := 30000
    multiplier := 0x4000000000000000, jitter := 0x3FC999999999999A }

namespace ClientOptions

def defaultModel : Bytes := ascii "gemini-2.5-flash"

def defaultBaseUrl : Bytes := ascii "https://generativelanguage.googleapis.com/v1beta"

def noApiKey : Error := makeError .config
  (ascii "no API key: set GEMINI_API_KEY (get one at https://aistudio.google.com/apikey)")

/-- Reads `GEMINI_API_KEY` or `GOOGLE_API_KEY`, `GEMINI_MODEL` and `GEMINI_BASE_URL`. -/
def fromEnv (getenv : Bytes → Option Bytes) : Result ClientOptions :=
  let apiKey := envOr getenv (ascii "GEMINI_API_KEY") (envOr getenv (ascii "GOOGLE_API_KEY") [])
  if apiKey = [] then .error noApiKey
  else
    .ok { apiKey, timeout := 120000, retry := .default
          model := envOr getenv (ascii "GEMINI_MODEL") defaultModel
          baseUrl := envOr getenv (ascii "GEMINI_BASE_URL") defaultBaseUrl }

end ClientOptions
end GeminiCpp
