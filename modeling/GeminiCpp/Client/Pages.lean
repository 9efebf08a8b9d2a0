import GeminiCpp.Client.Attempts
import GeminiCpp.Wire.Returns

/-! Listing the models of a server that has a fixed page for every URL: whatever attempts fail in
between, the pages are asked for in the order of their tokens, and all of them are returned. -/
namespace GeminiCpp
open Traced Traced.Prog

/-- The URLs that requests were sent to, in order. -/
def requestUrls (es : List Event) : List Bytes :=
  es.filterMap fun
    | .http request => some request.url
    | _ => none

theorem requestUrls_append (es es' : List Event) :
    requestUrls (es ++ es') = requestUrls es ++ requestUrls es' :=
  List.filterMap_append

@[simp] theorem requestUrls_nil : requestUrls [] = [] := rfl

@[simp] theorem requestUrls_metric (field : Metric) (amount : UInt64) (es : List Event) :
    requestUrls (.metric field amount :: es) = requestUrls es := rfl

@[simp] theorem requestUrls_sleep (delay : Millis) (es : List Event) :
    requestUrls (.sleep delay :: es) = requestUrls es := rfl

namespace Client
variable {ω : Type} (c : Client ω)

theorem requestUrls_attemptEvents {τ α : Type} {attempt : Program (τ × ω) (Result α)} {url : Bytes}
    (hattempt : ∀ s, requestUrls (attempt s).events = [url]) (n i : ℕ) (s : τ × ω) :
    requestUrls (c.attemptEvents attempt i s (n + 1)) = List.replicate (n + 1) url := by
  induction n generalizing i s with
  | zero => rw [attemptEvents, requestUrls_metric, hattempt, List.replicate_one]
  | succ n ih =>
    rw [attemptEvents, List.cons_append, requestUrls_metric, requestUrls_append, hattempt,
      requestUrls_metric, requestUrls_sleep, ih]
    rfl

/-- The request for a page. -/
def pageRequest (url : Bytes) : HttpRequest := { c.makeRequest url [] with method := ascii "GET" }

/-- What an attempt at a page reads from the response to its request. -/
def readPage (response : Result HttpResponse) : MayThrow (Result (List ModelInfo × Bytes)) := do
  match ← c.checkHttp response, response with
  | .ok (), .ok r => Wire.parseModelList c.text r.body
  | .ok (), .error e => return .error e
  | .error e, _ => return .error e

theorem readPage_returns (response : Result HttpResponse) : ∃ r, c.readPage response = .ok r := by
  unfold readPage checkHttp
  cases response with
  | error e => exact ⟨.error e, rfl⟩
  | ok r =>
    by_cases hstatus : r.status < 200 ∨ 300 ≤ r.status
    · obtain ⟨e, he⟩ := Wire.parseApiError_ok c.text r.status r.body r.headers
      simp only [hstatus, if_true, he]
      exact ⟨.error e, rfl⟩
    · obtain ⟨page, hpage, -⟩ := Wire.parseModelList_returns c.text r.body
      simp only [hstatus, if_false]
      exact ⟨page, hpage⟩

/-- The token of a page that was read, or else the token before. -/
def tokenAfter (token : Bytes) : Result (List ModelInfo × Bytes) → Bytes
  | .ok page => page.2
  | .error _ => token

/-- An attempt sends one request; a page that it reads leaves its token behind. -/
theorem pageAttempt_run {url : Bytes} {s : Bytes × ω} {r : Result (List ModelInfo × Bytes)}
    (hr : c.readPage (c.transport.send (c.pageRequest url) s.2).1 = .ok r) :
    c.pageAttempt url s =
      ⟨[.http (c.pageRequest url), .response (c.transport.send (c.pageRequest url) s.2).1],
        (tokenAfter s.1 r, (c.transport.send (c.pageRequest url) s.2).2), .ok (r.map (·.1))⟩ := by
  have hrequest : { c.makeRequest url [] with method := ascii "GET" } = c.pageRequest url := rfl
  rw [run_eq_iff]
  unfold readPage at hr
  simp only [pageAttempt, hrequest, Transport.run, wp_bind, wp_lift, wp_emit, wp_ask, wp_pure,
    then_ok, List.append_nil, wp_ofExcept]
  rcases hsend : c.transport.send (c.pageRequest url) s.2 with ⟨response, w⟩
  rw [hsend] at hr
  dsimp only at hr ⊢
  rcases hcheck : c.checkHttp response with x | (e | ⟨⟩)
  · rw [hcheck] at hr
    cases hr
  · rw [hcheck] at hr
    obtain rfl := Except.ok.inj hr
    rfl
  · rw [hcheck] at hr
    cases response with
    | error e =>
      obtain rfl := Except.ok.inj hr
      rfl
    | ok response =>
      change Wire.parseModelList c.text response.body = .ok r at hr
      simp only [then_ok, wp_bind, wp_ofExcept, hr]
      cases r <;> rfl

/-- What the server answers a request for a page in the world `w`, as the client reads it. -/
def answer (url : Bytes) (w : ω) : MayThrow (Result (List ModelInfo × Bytes)) :=
  c.readPage (c.transport.send (c.pageRequest url) w).1

/-- The world in which the attempt after `n` others is made at the page of the token `s.1`. -/
def worldAt (s : Bytes × ω) (n : ℕ) : ω :=
  (c.attemptState (c.pageAttempt (c.pageUrl s.1)) 0 s n).2

/-- The world after that attempt. -/
def worldAfter (s : Bytes × ω) (n : ℕ) : ω :=
  (c.transport.send (c.pageRequest (c.pageUrl s.1)) (c.worldAt s n)).2

/-- The first `n` attempts at a page fail, and each of them may be followed by another one. -/
structure Failures (s : Bytes × ω) (n : ℕ) : Prop where
  retryable : ∀ j < n, ∃ e, c.answer (c.pageUrl s.1) (c.worldAt s j) = .ok (.error e) ∧
    e.retryable = true
  budget : (n : ℤ) < max 1 c.options.retry.maxAttempts

/-- A page is read after `n` failures. -/
structure AnsweredAfter (s : Bytes × ω) (n : ℕ) (page : List ModelInfo × Bytes) : Prop
    extends c.Failures s n where
  answered : c.answer (c.pageUrl s.1) (c.worldAt s n) = .ok (.ok page)

/-- A page fails for good after `n` failures. -/
structure FailsAfter (s : Bytes × ω) (n : ℕ) (e : Error) : Prop extends c.Failures s n where
  failed : c.answer (c.pageUrl s.1) (c.worldAt s n) = .ok (.error e)
  final : e.retryable = false ∨ (n + 1 : ℤ) = max 1 c.options.retry.maxAttempts

variable {c}

theorem errorOf_pageAttempt {url : Bytes} {s : Bytes × ω} {e : Error} :
    errorOf (c.pageAttempt url s) = some e ↔ c.answer url s.2 = .ok (.error e) := by
  obtain ⟨r, hr⟩ := c.readPage_returns (c.transport.send (c.pageRequest url) s.2).1
  rw [errorOf_eq_some, c.pageAttempt_run hr, answer, hr]
  cases r <;> simp [Except.map]

theorem Failures.goes_on {s : Bytes × ω} {n : ℕ} (h : c.Failures s n) (j : ℕ) (hj : j < n) :
    GoesOn (c.pageAttempt (c.pageUrl s.1)) (fun _ => true)
      (c.attemptState (c.pageAttempt (c.pageUrl s.1)) 0 s j) := by
  obtain ⟨e, he, hretryable⟩ := h.retryable j hj
  exact ⟨e, errorOf_pageAttempt.mpr he, hretryable, rfl⟩

/-- The attempts at a page end with the one that is answered or that fails for good. -/
theorem wp_page {s : Bytes × ω} {n : ℕ} {r : Result (List ModelInfo × Bytes)}
    (h : c.Failures s n) (hr : c.answer (c.pageUrl s.1) (c.worldAt s n) = .ok r)
    (hstops : (n + 1 : ℤ) = max 1 c.options.retry.maxAttempts ∨
      ∀ e, r = .error e → e.retryable = false) :
    wp c.page s fun es s' result => requestUrls es = List.replicate (n + 1) (c.pageUrl s.1) ∧
      s'.2 = c.worldAfter s n ∧ (∀ page, r = .ok page → s'.1 = page.2) ∧
      result = .ok (r.map (·.1)) := by
  let attempt := c.pageAttempt (c.pageUrl s.1)
  have hbudget := h.budget
  have hstops' : n = (max 1 c.options.retry.maxAttempts - 1).toNat ∨
      ¬ GoesOn attempt (fun _ => true) (c.attemptState attempt 0 s n) := by
    refine hstops.imp (fun hn => by omega) fun hfinal hgoes => ?_
    obtain ⟨e, herror, hretryable, -⟩ := hgoes
    obtain rfl := Except.ok.inj (hr.symm.trans (errorOf_pageAttempt.mp herror))
    rw [hfinal e rfl] at hretryable
    cases hretryable
  have hrun : c.page s = ⟨c.attemptEvents attempt 0 s (n + 1), _, _⟩ :=
    retryFrom_after c h.goes_on (by omega) hstops'
  have hlast := c.pageAttempt_run (s := c.attemptState attempt 0 s n) hr
  rw [wp_iff, hrun, hlast]
  refine ⟨c.requestUrls_attemptEvents (fun s' => ?_) n 0 s, rfl, ?_, rfl⟩
  · obtain ⟨r', hr'⟩ := c.readPage_returns
      (c.transport.send (c.pageRequest (c.pageUrl s.1)) s'.2).1
    change requestUrls (c.pageAttempt (c.pageUrl s.1) s').events = _
    rw [c.pageAttempt_run hr']
    rfl
  · intro page hpage
    rw [hpage]
    rfl

/-- Every page is read after some failures, or fails for good. -/
theorem answered_or_fails (s : Bytes × ω) :
    ∃ n, (∃ page, c.AnsweredAfter s n page) ∨ ∃ e, c.FailsAfter s n e := by
  let attempt := c.pageAttempt (c.pageUrl s.1)
  have hretried : wp c.page s fun es s' r => ∃ n, c.Retried attempt (fun _ => true)
      (max 1 c.options.retry.maxAttempts - 1).toNat 0 s ⟨es, s', r⟩ n :=
    c.wp_retryFrom_retried _ 0 s
  obtain ⟨n, h⟩ := hretried
  obtain ⟨m, rfl⟩ : ∃ m, n = m + 1 := ⟨n - 1, by have := h.pos; omega⟩
  have hle := h.le
  have hfailures : c.Failures s m := by
    constructor
    case budget => omega
    case retryable =>
      intro j hj
      obtain ⟨e, herror, hretryable, -⟩ := h.goes_on j (by omega)
      exact ⟨e, errorOf_pageAttempt.mp herror, hretryable⟩
  obtain ⟨r, hr⟩ := c.readPage_returns
    (c.transport.send (c.pageRequest (c.pageUrl s.1)) (c.worldAt s m)).1
  use m
  cases r with
  | ok page => exact Or.inl ⟨page, hfailures, hr⟩
  | error e =>
    refine Or.inr ⟨e, hfailures, hr, ?_⟩
    rcases h.stops with hlast | hstops
    · exact Or.inr (by omega)
    · left
      by_contra hretryable
      exact hstops ⟨e, errorOf_pageAttempt.mpr hr, Bool.eq_true_of_not_eq_false hretryable, rfl⟩

variable (c) in
/-- The server has the page `site url` for every URL; it may still answer with errors. -/
def Serves (site : Bytes → List ModelInfo × Bytes) : Prop :=
  ∀ url w page, c.answer url w = .ok (.ok page) → page = site url

variable (c) in
/-- The URLs of the pages from a token on: the token of a page leads to the next one, and the last
page has none. -/
inductive PageChain (site : Bytes → List ModelInfo × Bytes) : Bytes → List Bytes → Prop
  | last {token : Bytes} (hlast : (site (c.pageUrl token)).2 = []) :
    PageChain site token [c.pageUrl token]
  | next {token : Bytes} {urls : List Bytes} (hnext : (site (c.pageUrl token)).2 ≠ [])
    (rest : PageChain site (site (c.pageUrl token)).2 urls) :
    PageChain site token (c.pageUrl token :: urls)

variable (c) in
/-- From the state `s` on all pages are read, with so many failures before each of them. -/
inductive Listed : Bytes × ω → List ℕ → Prop
  | last {s : Bytes × ω} {n : ℕ} {page : List ModelInfo × Bytes} (h : c.AnsweredAfter s n page)
    (hlast : page.2 = []) : Listed s [n]
  | next {s : Bytes × ω} {n : ℕ} {ns : List ℕ} {page : List ModelInfo × Bytes}
    (h : c.AnsweredAfter s n page) (hnext : page.2 ≠ [])
    (rest : Listed (page.2, c.worldAfter s n) ns) : Listed s (n :: ns)

variable (c) in
/-- From the state `s` on a page fails for good, with so many failures at it and before each page
before it. -/
inductive GivesUp : Bytes × ω → List ℕ → Error → Prop
  | here {s : Bytes × ω} {n : ℕ} {e : Error} (h : c.FailsAfter s n e) : GivesUp s [n] e
  | later {s : Bytes × ω} {n : ℕ} {ns : List ℕ} {e : Error} {page : List ModelInfo × Bytes}
    (h : c.AnsweredAfter s n page) (hnext : page.2 ≠ [])
    (rest : GivesUp (page.2, c.worldAfter s n) ns e) : GivesUp s (n :: ns) e

/-- The URLs of the attempts, when each page is asked for once more than it fails. -/
def attemptUrls (urls : List Bytes) (ns : List ℕ) : List Bytes :=
  (urls.zipWith (fun url n => List.replicate (n + 1) url) ns).flatten

theorem wp_page_answered {s : Bytes × ω} {n : ℕ} {page : List ModelInfo × Bytes}
    (h : c.AnsweredAfter s n page) :
    wp c.page s fun es s' r => requestUrls es = List.replicate (n + 1) (c.pageUrl s.1) ∧
      s' = (page.2, c.worldAfter s n) ∧ r = .ok (.ok page.1) := by
  have hfinal : ∀ e, (Except.ok page : Result _) = .error e → e.retryable = false := by
    intro e he
    cases he
  refine wp_mono (wp_page h.toFailures h.answered (Or.inr hfinal)) fun es s' r hpage => ?_
  obtain ⟨hurls, hworld, htoken, hresult⟩ := hpage
  exact ⟨hurls, Prod.ext (htoken page rfl) hworld, hresult⟩

theorem wp_page_fails {s : Bytes × ω} {n : ℕ} {e : Error} (h : c.FailsAfter s n e) :
    wp c.page s fun es _ r => requestUrls es = List.replicate (n + 1) (c.pageUrl s.1) ∧
      r = .ok (.error e) := by
  have hfinal : ∀ e', (Except.error e : Result (List ModelInfo × Bytes)) = .error e' →
      e.retryable = false → e'.retryable = false := by
    intro e' he hretryable
    rw [← Except.error.inj he]
    exact hretryable
  have hstops := h.final.symm.imp_right fun hretryable e' he => hfinal e' he hretryable
  refine wp_mono (wp_page h.toFailures h.failed hstops) fun es s' r hpage => ?_
  obtain ⟨hurls, -, -, hresult⟩ := hpage
  exact ⟨hurls, hresult⟩

variable {site : Bytes → List ModelInfo × Bytes}

/-- The loop goes on with the next page. -/
theorem wp_pages_answered {s : Bytes × ω} {n : ℕ} {page : List ModelInfo × Bytes}
    (h : c.AnsweredAfter s n page) (hnext : page.2 ≠ []) {all : List ModelInfo} {fuel : ℕ}
    {urls : List Bytes} {ns : List ℕ} {result : Option (Result (List ModelInfo))}
    (hrest : wp (c.pages (all ++ page.1) fuel) (page.2, c.worldAfter s n) fun es _ r =>
      r = .ok result ∧ requestUrls es = attemptUrls urls ns) :
    wp (c.pages all (fuel + 1)) s fun es _ r => r = .ok result ∧
      requestUrls es = attemptUrls (c.pageUrl s.1 :: urls) (n :: ns) := by
  rw [pages, wp_bind]
  refine wp_mono (wp_page_answered h) fun es s' r hread => ?_
  obtain ⟨hurls, rfl, rfl⟩ := hread
  simp only [then_ok, wp_bind, wp_get, hnext, if_false]
  refine wp_mono hrest fun es' s' r' hpages => ?_
  obtain ⟨rfl, hurls'⟩ := hpages
  simp [requestUrls_append, hurls, hurls', attemptUrls]

/-- The loop ends with a page that fails for good. -/
theorem wp_pages_fails {s : Bytes × ω} {n : ℕ} {e : Error} (h : c.FailsAfter s n e)
    {all : List ModelInfo} {fuel : ℕ} {urls : List Bytes} :
    wp (c.pages all (fuel + 1)) s fun es _ r => r = .ok (some (.error e)) ∧
      requestUrls es = attemptUrls (c.pageUrl s.1 :: urls) [n] := by
  rw [pages, wp_bind]
  refine wp_mono (wp_page_fails h) fun es s' r hread => ?_
  obtain ⟨hurls, rfl⟩ := hread
  simp only [countFailure, then_ok, wp_bind, wp_lift, wp_emit, wp_pure]
  simp [requestUrls_append, hurls, attemptUrls]

/-- The loop over the pages when all of them are read. -/
theorem wp_pages_listed (hserves : c.Serves site) {token : Bytes} {urls : List Bytes}
    (hchain : c.PageChain site token urls) {w : ω} {ns : List ℕ}
    (hlisted : c.Listed (token, w) ns) (all : List ModelInfo) {fuel : ℕ}
    (hfuel : urls.length ≤ fuel) :
    ns.length = urls.length ∧ wp (c.pages all fuel) (token, w) fun es _ r =>
      r = .ok (some (.ok (all ++ urls.flatMap fun url => (site url).1))) ∧
        requestUrls es = attemptUrls urls ns := by
  induction hchain generalizing w ns all fuel with
  | last hlast =>
    obtain ⟨fuel, rfl⟩ : ∃ m, fuel = m + 1 := ⟨fuel - 1, by simp at hfuel; omega⟩
    cases hlisted with
    | last h hend =>
      obtain rfl := hserves _ _ _ h.answered
      refine ⟨rfl, ?_⟩
      rw [pages, wp_bind]
      refine wp_mono (wp_page_answered h) fun es s' r hread => ?_
      obtain ⟨hurls, rfl, rfl⟩ := hread
      simp only [then_ok, wp_bind, wp_get, hlast, if_true, wp_pure]
      simp [hurls, attemptUrls]
    | next h hnext rest =>
      rw [hserves _ _ _ h.answered] at hnext
      exact absurd hlast hnext
  | next hnext rest ih =>
    obtain ⟨fuel, rfl⟩ : ∃ m, fuel = m + 1 := ⟨fuel - 1, by simp at hfuel; omega⟩
    cases hlisted with
    | last h hend =>
      rw [hserves _ _ _ h.answered] at hend
      exact absurd hend hnext
    | next h _ hrest =>
      obtain rfl := hserves _ _ _ h.answered
      obtain ⟨hlength, hrun⟩ := ih hrest (all ++ _) (Nat.le_of_succ_le_succ hfuel)
      refine ⟨congrArg Nat.succ hlength, ?_⟩
      rw [List.flatMap_cons, ← List.append_assoc]
      exact wp_pages_answered h hnext hrun

/-- The loop over the pages when one of them fails for good. -/
theorem wp_pages_givesUp (hserves : c.Serves site) {token : Bytes} {urls : List Bytes}
    (hchain : c.PageChain site token urls) {w : ω} {ns : List ℕ} {e : Error}
    (hgivesUp : c.GivesUp (token, w) ns e) (all : List ModelInfo) {fuel : ℕ}
    (hfuel : urls.length ≤ fuel) :
    ns.length ≤ urls.length ∧ wp (c.pages all fuel) (token, w) fun es _ r =>
      r = .ok (some (.error e)) ∧ requestUrls es = attemptUrls urls ns := by
  induction hchain generalizing w ns all fuel with
  | last hlast =>
    obtain ⟨fuel, rfl⟩ : ∃ m, fuel = m + 1 := ⟨fuel - 1, by simp at hfuel; omega⟩
    cases hgivesUp with
    | here h => exact ⟨le_refl 1, wp_pages_fails h⟩
    | later h hnext _ =>
      rw [hserves _ _ _ h.answered] at hnext
      exact absurd hlast hnext
  | next hnext rest ih =>
    obtain ⟨fuel, rfl⟩ : ∃ m, fuel = m + 1 := ⟨fuel - 1, by simp at hfuel; omega⟩
    cases hgivesUp with
    | here h => exact ⟨by simp, wp_pages_fails h⟩
    | later h _ hrest =>
      obtain rfl := hserves _ _ _ h.answered
      obtain ⟨hlength, hrun⟩ := ih hrest (all ++ _) (Nat.le_of_succ_le_succ hfuel)
      exact ⟨Nat.succ_le_succ hlength, wp_pages_answered h hnext hrun⟩

/-- Either all pages are read or one of them fails for good. -/
theorem listed_or_givesUp (hserves : c.Serves site) {token : Bytes} {urls : List Bytes}
    (hchain : c.PageChain site token urls) (w : ω) :
    (∃ ns, c.Listed (token, w) ns) ∨ ∃ ns e, c.GivesUp (token, w) ns e := by
  induction hchain generalizing w with
  | @last token hlast =>
    obtain ⟨n, ⟨page, h⟩ | ⟨e, h⟩⟩ := answered_or_fails (c := c) (token, w)
    · obtain rfl := hserves _ _ _ h.answered
      exact Or.inl ⟨[n], .last h hlast⟩
    · exact Or.inr ⟨[n], e, .here h⟩
  | @next token urls hnext rest ih =>
    obtain ⟨n, ⟨page, h⟩ | ⟨e, h⟩⟩ := answered_or_fails (c := c) (token, w)
    · obtain rfl := hserves _ _ _ h.answered
      rcases ih (c.worldAfter (token, w) n) with ⟨ns, hrest⟩ | ⟨ns, e, hrest⟩
      · exact Or.inl ⟨n :: ns, .next h hnext hrest⟩
      · exact Or.inr ⟨n :: ns, e, .later h hnext hrest⟩
    · exact Or.inr ⟨[n], e, .here h⟩

theorem PageChain.unique {token token' : Bytes} {urls urls' : List Bytes}
    (h : c.PageChain site token urls) (h' : c.PageChain site token' urls')
    (hurl : c.pageUrl token = c.pageUrl token') : urls = urls' := by
  induction h generalizing token' urls' with
  | last hlast =>
    cases h' with
    | last _ => rw [hurl]
    | next hnext _ =>
      rw [hurl] at hlast
      exact absurd hlast hnext
  | next hnext rest ih =>
    rw [hurl] at hnext ih ⊢
    cases h' with
    | last hlast => exact absurd hlast hnext
    | next _ rest' => rw [ih rest' rfl]

theorem PageChain.of_mem {token url : Bytes} {urls : List Bytes}
    (h : c.PageChain site token urls) (hurl : url ∈ urls) :
    ∃ token' urls', c.PageChain site token' urls' ∧ c.pageUrl token' = url ∧
      urls'.length ≤ urls.length := by
  induction h with
  | last hlast =>
    obtain rfl := List.mem_singleton.mp hurl
    exact ⟨_, _, .last hlast, rfl, le_refl _⟩
  | next hnext rest ih =>
    rcases List.mem_cons.mp hurl with rfl | hmem
    · exact ⟨_, _, .next hnext rest, rfl, le_refl _⟩
    · obtain ⟨token', urls', h', hurl', hle⟩ := ih hmem
      exact ⟨token', urls', h', hurl', Nat.le_succ_of_le hle⟩

/-- A finite chain has no URL twice: the pages after it would be repeated for ever. -/
theorem PageChain.nodup {token : Bytes} {urls : List Bytes} (h : c.PageChain site token urls) :
    urls.Nodup := by
  induction h with
  | last hlast => exact List.nodup_singleton _
  | next hnext rest ih =>
    refine List.nodup_cons.mpr ⟨fun hmem => ?_, ih⟩
    obtain ⟨token', urls', h', hurl, hle⟩ := rest.of_mem hmem
    have hsame := h'.unique (.next hnext rest) hurl
    rw [hsame, List.length_cons] at hle
    omega

/-- The call counts itself and runs the loop over the pages. -/
theorem wp_listModels (hkey : c.options.apiKey ≠ []) {fuel : ℕ} {w : ω} {urls : List Bytes}
    {result : MayThrow (Option (Result (List ModelInfo)))}
    (h : wp (c.pages [] fuel) ([], w) fun es _ r => r = result ∧ requestUrls es = urls) :
    wp (c.listModels fuel) w fun es _ r => r = result ∧ requestUrls es = urls := by
  unfold listModels
  rw [if_neg hkey, wp_bind, wp_emit, then_ok, wp_withLocals]
  exact h

/-- Listing the models of a server whose pages form a finite chain ends. If every page is read
within the attempts for it, the models of all pages are returned, in the order of the chain and
each page once; if a page fails for good, its error is returned. All attempts at a page use the URL
that the page before leads to. -/
theorem listModels_complete (c : Client ω) (hkey : c.options.apiKey ≠ [])
    (hserves : c.Serves site) {urls : List Bytes} (hchain : c.PageChain site [] urls) (w : ω) :
    urls.Nodup ∧ ((∃ ns, c.Listed ([], w) ns) ∨ ∃ ns e, c.GivesUp ([], w) ns e) ∧
    (∀ ns, c.Listed ([], w) ns → ns.length = urls.length ∧ ∀ fuel, urls.length ≤ fuel →
      (c.listModels fuel w).result = .ok (some (.ok (urls.flatMap fun url => (site url).1))) ∧
        requestUrls (c.listModels fuel w).events = attemptUrls urls ns) ∧
    ∀ ns e, c.GivesUp ([], w) ns e → ns.length ≤ urls.length ∧ ∀ fuel, urls.length ≤ fuel →
      (c.listModels fuel w).result = .ok (some (.error e)) ∧
        requestUrls (c.listModels fuel w).events = attemptUrls urls ns := by
  refine ⟨hchain.nodup, listed_or_givesUp hserves hchain w, fun ns hlisted => ?_,
    fun ns e hgivesUp => ?_⟩
  · refine ⟨(wp_pages_listed hserves hchain hlisted [] le_rfl).1, fun fuel hfuel => ?_⟩
    have hrun := (wp_pages_listed hserves hchain hlisted [] hfuel).2
    exact wp_iff.mp (wp_listModels hkey hrun)
  · refine ⟨(wp_pages_givesUp hserves hchain hgivesUp [] le_rfl).1, fun fuel hfuel => ?_⟩
    have hrun := (wp_pages_givesUp hserves hchain hgivesUp [] hfuel).2
    exact wp_iff.mp (wp_listModels hkey hrun)

/-- The reply of a server with two pages, for its first page or for the other one. -/
def twoPagesReply (fails first : Bool) : Result HttpResponse :=
  .ok { status := if fails then 503 else 200, headers := []
        body := if first then ascii "1" else ascii "2" }

/-- The server fails once for every bit that is set. -/
def twoPages : Transport (List Bool) :=
  { send := fun request w =>
      (twoPagesReply (w.head? = some true) (request.url = ascii "u/models?pageSize=100"), w.tail)
    sendStreaming := fun _ w => (.done (twoPagesReply true true), w) }

/-- Its pages have one model each. -/
def twoPagesText : JsonText :=
  .known [(ascii "1", Json.object [
      (ascii "models", .arr [Json.object [(ascii "name", .str (ascii "a"))]]),
      (ascii "nextPageToken", .str (ascii "t"))]),
    (ascii "2", Json.object [
      (ascii "models", .arr [Json.object [(ascii "name", .str (ascii "b"))]])])] []

def modelNamed (name : String) : ModelInfo :=
  { name := ascii name, displayName := [], description := [], inputTokenLimit := 0
    outputTokenLimit := 0, supportedMethods := [] }

def twoPagesPage (first : Bool) : List ModelInfo × Bytes :=
  if first then ([modelNamed "a"], ascii "t") else ([modelNamed "b"], [])

def twoPagesSite (url : Bytes) : List ModelInfo × Bytes :=
  twoPagesPage (url = ascii "u/models?pageSize=100")

/-- A client of it that makes two attempts. -/
def twoPagesClient : Client (List Bool) :=
  { options := { apiKey := ascii "k", model := [], baseUrl := ascii "u", timeout := 0
                 retry := { maxAttempts := 2, initialBackoff := 0, maxBackoff := 0
                            multiplier := 0, jitter := 0 } }
    transport := twoPages, host := .still, text := twoPagesText }

theorem answer_twoPages_fails (url : Bytes) {w : List Bool} (hw : w.head? = some true) :
    ∃ e, twoPagesClient.answer url w = .ok (.error e) ∧ e.retryable = true := by
  have hread : ∀ first, ∃ e, twoPagesClient.readPage (twoPagesReply true first) = .ok (.error e) ∧
      e.retryable = true := by
    intro first
    cases first <;> exact ⟨_, rfl, rfl⟩
  have hfails : decide (w.head? = some true) = true := decide_eq_true hw
  change ∃ e, twoPagesClient.readPage (twoPagesReply (decide _) _) = _ ∧ _
  rw [hfails]
  exact hread _

theorem answer_twoPages_page (url : Bytes) {w : List Bool} (hw : w.head? ≠ some true) :
    twoPagesClient.answer url w = .ok (.ok (twoPagesSite url)) := by
  have hread : ∀ first, twoPagesClient.readPage (twoPagesReply false first) =
      .ok (.ok (twoPagesPage first)) := by
    intro first
    cases first <;> rfl
  have hanswers : decide (w.head? = some true) = false := decide_eq_false hw
  change twoPagesClient.readPage (twoPagesReply (decide _) _) = _
  rw [hanswers]
  exact hread _

theorem serves_twoPages : twoPagesClient.Serves twoPagesSite := by
  intro url w page h
  by_cases hw : w.head? = some true
  · obtain ⟨e, he, -⟩ := answer_twoPages_fails url hw
    rw [he] at h
    cases h
  · rw [answer_twoPages_page url hw] at h
    exact (Except.ok.inj (Except.ok.inj h)).symm

/-- The first page fails once and both pages are listed. -/
theorem listModels_complete_oneFailure :
    (twoPagesClient.listModels 2 [true]).result =
        .ok (some (.ok [modelNamed "a", modelNamed "b"])) ∧
      requestUrls (twoPagesClient.listModels 2 [true]).events =
        [ascii "u/models?pageSize=100", ascii "u/models?pageSize=100",
          ascii "u/models?pageSize=100&pageToken=t"] := by
  have hchain : twoPagesClient.PageChain twoPagesSite []
      [twoPagesClient.pageUrl [], twoPagesClient.pageUrl (ascii "t")] :=
    .next (by decide) (.last (by decide))
  have hlisted : twoPagesClient.Listed ([], [true]) [1, 0] := by
    have hfirst : twoPagesClient.AnsweredAfter ([], [true]) 1 ([modelNamed "a"], ascii "t") := by
      refine ⟨⟨fun j hj => ?_, by decide⟩, answer_twoPages_page _ (by decide +kernel)⟩
      obtain rfl : j = 0 := by omega
      exact answer_twoPages_fails _ rfl
    have hsecond : twoPagesClient.AnsweredAfter (ascii "t", []) 0 ([modelNamed "b"], []) :=
      ⟨⟨fun j hj => by omega, by decide⟩, answer_twoPages_page _ (by decide)⟩
    have hworld : twoPagesClient.worldAfter ([], [true]) 1 = [] := by decide +kernel
    rw [← hworld] at hsecond
    exact .next hfirst (by decide) (.last hsecond rfl)
  obtain ⟨-, -, hall, -⟩ :=
    listModels_complete twoPagesClient (by decide) serves_twoPages hchain [true]
  exact (hall [1, 0] hlisted).2 2 le_rfl

end Client
end GeminiCpp
