import GeminiCpp.Client.Pages
import GeminiCpp.Lib.FormQuery

/-! Which page tokens arrive at the server: they are put into the URL as they are. -/
namespace GeminiCpp.Client
open Traced Traced.Prog FormQuery

variable {ω : Type} (c : Client ω)

/-- The parameters that the URL of a page should have. -/
def pageParameters (token : Bytes) : List (Bytes × Bytes) :=
  [(ascii "pageSize", ascii "100"), (ascii "pageToken", token)]

/-- The tokens that arrive at the server of a base URL. A fragment in the base URL leaves nothing
but the parameters that stand before it. -/
def TokenArrives (baseUrl token : Bytes) : Prop :=
  (0x23 ∈ baseUrl ∧ parameters baseUrl = pageParameters token) ∨
    (0x23 ∉ baseUrl ∧ 0x3F ∉ baseUrl ∧ 0x23 ∉ token ∧ 0x26 ∉ token ∧ Plain token)

theorem pageUrl_of_ne_nil {token : Bytes} (h : token ≠ []) :
    c.pageUrl token =
      c.options.baseUrl ++ (ascii "/models?pageSize=100&pageToken=" ++ token) := by
  have hjoin : ascii "/models?pageSize=100" ++ ascii "&pageToken=" =
      ascii "/models?pageSize=100&pageToken=" := by decide
  unfold pageUrl
  rw [if_neg h, List.append_assoc, ← hjoin]
  simp only [List.append_assoc]

/-- In a query, the page token is read back exactly if it is plain and has no separator. -/
theorem parseQuery_page_iff (token : Bytes) :
    parseQuery (ascii "pageSize=100&pageToken=" ++ token.takeWhile (· ≠ 0x23)) =
      pageParameters token ↔ 0x23 ∉ token ∧ 0x26 ∉ token ∧ Plain token := by
  have hsize : parseQuery (ascii "pageSize=100") = [(ascii "pageSize", ascii "100")] := by decide
  have hname : Plain (ascii "pageToken") := (decode_eq_self_iff _).mp (by decide)
  have hsplit : ascii "pageSize=100&pageToken=" =
      ascii "pageSize=100" ++ 0x26 :: (ascii "pageToken" ++ [0x3D]) := by decide
  have hparts : ∀ t : Bytes, ascii "pageSize=100&pageToken=" ++ t =
      ascii "pageSize=100" ++ 0x26 :: (ascii "pageToken" ++ 0x3D :: t) := by
    intro t
    rw [hsplit, List.append_assoc, List.cons_append, List.append_assoc]
    rfl
  rw [hparts, parseQuery_append_cons, hsize,
    ← parseQuery_value_iff hname (by decide) (by decide)]
  exact List.cons_inj_right _

/-- After a query in the base URL, no token is read back. -/
theorem parseQuery_page_ne (q token rest : Bytes) :
    parseQuery (q ++ (ascii "/models?pageSize=100&pageToken=" ++ rest)) ≠
      pageParameters token := by
  intro h
  have hsplit : ascii "/models?pageSize=100&pageToken=" =
      ascii "/models?pageSize=100" ++ 0x26 :: ascii "pageToken=" := by decide
  have hparts : q ++ (ascii "/models?pageSize=100&pageToken=" ++ rest) =
      (q ++ ascii "/models?pageSize=100") ++ 0x26 :: (ascii "pageToken=" ++ rest) := by
    rw [hsplit, List.append_assoc, List.append_assoc, List.cons_append]
  -- The path shows up in a parameter, and the token in one after it.
  obtain ⟨p, hp, hslash⟩ := mem_parseQuery (c := 0x2F) (by decide) (by decide) (by decide)
    (by decide) (by decide) (q := q ++ ascii "/models?pageSize=100") (by simp [ascii])
  obtain ⟨p', hp', -⟩ := mem_parseQuery (c := 0x70) (by decide) (by decide) (by decide)
    (by decide) (by decide) (q := ascii "pageToken=" ++ rest) (by simp [ascii])
  rw [hparts, parseQuery_append_cons] at h
  obtain ⟨first, rest', hfirst⟩ := List.exists_cons_of_ne_nil (List.ne_nil_of_mem hp)
  obtain ⟨second, rest'', hsecond⟩ := List.exists_cons_of_ne_nil (List.ne_nil_of_mem hp')
  have hlength := congrArg List.length h
  rw [hfirst, hsecond] at hlength
  simp only [List.length_append, List.length_cons, pageParameters, List.length_nil] at hlength
  obtain rfl : rest' = [] := List.length_eq_zero_iff.mp (by omega)
  rw [hfirst] at h hp
  obtain rfl := List.mem_singleton.mp hp
  rw [List.singleton_append, pageParameters] at h
  obtain ⟨rfl, -⟩ := List.cons.inj h
  exact absurd hslash (by decide)

/-- Exactly these tokens are the parameters of the URL that they are put in. -/
theorem parameters_pageUrl_iff {token : Bytes} (h : token ≠ []) :
    parameters (c.pageUrl token) = pageParameters token ↔
      TokenArrives c.options.baseUrl token := by
  have hfixed : ∀ {s : Bytes}, 0x23 ∉ s → (s ++ token).takeWhile (· ≠ 0x23) =
      s ++ token.takeWhile (· ≠ 0x23) := fun hs => takeWhile_ne_append hs token
  unfold parameters TokenArrives
  rw [c.pageUrl_of_ne_nil h]
  by_cases hhash : 0x23 ∈ c.options.baseUrl
  · rw [query_append_of_hash hhash]
    simp [hhash, parameters]
  by_cases hquestion : 0x3F ∈ c.options.baseUrl
  · rw [query_append_of_mem hquestion hhash, hfixed (by decide)]
    have hne := parseQuery_page_ne (query c.options.baseUrl) token (token.takeWhile (· ≠ 0x23))
    constructor
    · exact fun hparameters => absurd hparameters hne
    · rintro (⟨hmem, -⟩ | ⟨-, hnot, -⟩)
      exacts [absurd hmem hhash, absurd hquestion hnot]
  · have hsplit : ascii "/models?pageSize=100&pageToken=" =
        ascii "/models" ++ 0x3F :: ascii "pageSize=100&pageToken=" := by decide
    have hparts : c.options.baseUrl ++ (ascii "/models?pageSize=100&pageToken=" ++ token) =
        (c.options.baseUrl ++ ascii "/models") ++
          0x3F :: (ascii "pageSize=100&pageToken=" ++ token) := by
      rw [hsplit, List.append_assoc, List.append_assoc, List.cons_append]
    have hmodels : ∀ b ∈ ascii "/models", b ≠ 0x3F ∧ b ≠ 0x23 := by
      have hall : (ascii "/models").all (fun b => b ≠ 0x3F ∧ b ≠ 0x23) = true := rfl
      intro b hb
      exact of_decide_eq_true (List.all_eq_true.mp hall b hb)
    have hquestion' : 0x3F ∉ c.options.baseUrl ++ ascii "/models" := fun hmem =>
      (List.mem_append.mp hmem).elim hquestion fun hin => (hmodels _ hin).1 rfl
    have hhash' : 0x23 ∉ c.options.baseUrl ++ ascii "/models" := fun hmem =>
      (List.mem_append.mp hmem).elim hhash fun hin => (hmodels _ hin).2 rfl
    rw [hparts, query_append hquestion' hhash', hfixed (by decide), parseQuery_page_iff]
    simp [hhash, hquestion]

variable {c}

theorem requestUrls_page (s : Bytes × ω) :
    ∃ n, requestUrls (c.page s).events = List.replicate (n + 1) (c.pageUrl s.1) := by
  obtain ⟨n, ⟨page, h⟩ | ⟨e, h⟩⟩ := answered_or_fails (c := c) s
  · exact ⟨n, (wp_iff.mp (wp_page_answered h)).1⟩
  · exact ⟨n, (wp_iff.mp (wp_page_fails h)).1⟩

/-- A call that has read a page asks next for the page that its token leads to. -/
theorem requestUrls_pages_next {s : Bytes × ω} {n : ℕ} {page : List ModelInfo × Bytes}
    (h : c.AnsweredAfter s n page) (hnext : page.2 ≠ []) (all : List ModelInfo) (fuel : ℕ) :
    ∃ more, requestUrls (c.pages all (fuel + 2) s).events =
      List.replicate (n + 1) (c.pageUrl s.1) ++ c.pageUrl page.2 :: more := by
  have hpages : wp (c.pages all (fuel + 2)) s fun es _ _ => ∃ more, requestUrls es =
      List.replicate (n + 1) (c.pageUrl s.1) ++ c.pageUrl page.2 :: more := by
    rw [pages, wp_bind]
    refine wp_mono (wp_page_answered h) fun es s' r hread => ?_
    obtain ⟨hurls, rfl, rfl⟩ := hread
    simp only [then_ok, wp_bind, wp_get, hnext, if_false]
    rw [wp_iff, pages]
    obtain ⟨m, hm⟩ := requestUrls_page (c := c) (page.2, c.worldAfter s n)
    obtain ⟨rest, hrest⟩ := events_bind c.page _ (page.2, c.worldAfter s n)
    rw [hrest]
    refine ⟨List.replicate m (c.pageUrl page.2) ++ requestUrls rest, ?_⟩
    simp [requestUrls_append, hurls, hm, List.replicate_succ]
  exact wp_iff.mp hpages

/-- The URL of the page after one that was read has the parameters it should exactly if the token
arrives. -/
theorem pageToken_arrives_iff {s : Bytes × ω} {n : ℕ} {page : List ModelInfo × Bytes}
    (h : c.AnsweredAfter s n page) (hnext : page.2 ≠ []) (all : List ModelInfo) (fuel : ℕ) :
    ∃ url more, requestUrls (c.pages all (fuel + 2) s).events =
        List.replicate (n + 1) (c.pageUrl s.1) ++ url :: more ∧
      (parameters url = pageParameters page.2 ↔ TokenArrives c.options.baseUrl page.2) := by
  obtain ⟨more, hmore⟩ := requestUrls_pages_next h hnext all fuel
  exact ⟨c.pageUrl page.2, more, hmore, c.parameters_pageUrl_iff hnext⟩

/-- A client whose server has two pages, with a token between them. -/
def tokenClient (token : String) : Client (List FakeTransport.Reply) :=
  makeClient (.known [(ascii "1", Json.object [(ascii "nextPageToken", .str (ascii token))]),
    (ascii "2", Json.object [])] [])

def tokenReplies : List FakeTransport.Reply :=
  [FakeTransport.ofJson 200 (ascii "1"), FakeTransport.ofJson 200 (ascii "2")]

theorem answeredAfter_tokenReplies (token : String) :
    (tokenClient token).AnsweredAfter ([], tokenReplies) 0 ([], ascii token) :=
  ⟨⟨fun j hj => by omega, one_pos⟩, rfl⟩

/-- A token of letters and dashes arrives. -/
theorem pageToken_arrives_letters :
    ∃ url more, requestUrls ((tokenClient "CAIQ-_").pages [] 2 ([], tokenReplies)).events =
        [(tokenClient "CAIQ-_").pageUrl []] ++ url :: more ∧
      parameters url = pageParameters (ascii "CAIQ-_") := by
  obtain ⟨url, more, hurls, harrives⟩ :=
    pageToken_arrives_iff (answeredAfter_tokenReplies "CAIQ-_") (by decide) [] 0
  refine ⟨url, more, hurls, harrives.mpr (Or.inr ⟨by decide, by decide, by decide, by decide, ?_⟩)⟩
  exact (decode_eq_self_iff _).mp (by decide)

/-- A plus sign in a token arrives as a space. -/
theorem plusToken_changed :
    ∃ url, requestUrls ((tokenClient "a+b").listModels 2 tokenReplies).events =
        [(tokenClient "a+b").pageUrl [], url] ∧
      parameters url = pageParameters (ascii "a b") ∧
      parameters url ≠ pageParameters (ascii "a+b") := by
  refine ⟨(tokenClient "a+b").pageUrl (ascii "a+b"), ?_, ?_, ?_⟩
  · decide +kernel
  · decide +kernel
  · decide +kernel

end GeminiCpp.Client
