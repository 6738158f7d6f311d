import CoeleoOs.Net.Url
import Mathlib.Data.List.Infix

/-!
# HTTP requests

What is sent for a URL. The host of an accepted URL is made of harmless characters, its path is
whatever follows the authority.
-/

namespace CoeleoOs.Net
open CoeleoOs.Lib.Text

def crlf : List Char := ['\r', '\n']

def dotted (octets : List ℕ) : List Char := ['.'].intercalate (octets.map (Nat.toDigits 10))

def hostText : Host → List Char
  | .v4 o => dotted o
  | .name n => n

def requestLine (path : List Char) : List Char := "GET ".toList ++ path ++ " HTTP/1.0".toList

def request (url : Url) : List Char :=
  requestLine url.path ++ crlf ++ "Host: ".toList ++ hostText url.host ++ crlf ++ crlf

def plainRequest (url : Url) : List Char := request url

def tlsRequest (url : Url) : List Char := request url

/-- One request line, one header with the host, the empty line, and nothing after it. -/
structure OneRequest (req : List Char) (url : Url) : Prop where
  split : ∃ line value, splitCrlf req = [line, "Host: ".toList ++ value, [], []] ∧
    line.splitOn ' ' = ["GET".toList, url.path, "HTTP/1.0".toList] ∧ parseHost value = some url.host

def Harmless (s : List Char) : Prop := ' ' ∉ s ∧ ¬ crlf <:+: s

instance (s : List Char) : Decidable (Harmless s) := inferInstanceAs (Decidable (_ ∧ _))

section Lines

variable {s t l : List Char}

theorem splitCrlf_ne_nil (s : List Char) : splitCrlf s ≠ [] := by
  induction s using splitCrlf.induct with
  | case1 => simp [splitCrlf]
  | case2 s ih => simp [splitCrlf]
  | case3 c s hc ih =>
    rw [splitCrlf.eq_3 c s hc]
    simpa using ih

theorem not_infix_of_not_mem {c : Char} (hc : c ∈ t) (h : c ∉ s) : ¬ t <:+: s :=
  fun hpart => h (hpart.subset hc)

theorem splitCrlf_line (h : ¬ crlf <:+: l) (s : List Char) :
    splitCrlf (l ++ crlf ++ s) = l :: splitCrlf s := by
  induction l with
  | nil => rfl
  | cons c l ih =>
    rw [List.infix_cons_iff, not_or] at h
    have hfirst : ∀ r, c = '\r' → l ++ crlf ++ s = '\n' :: r → False := by
      rintro r rfl hr
      rcases l with _ | ⟨d, l⟩
      · simp [crlf] at hr
      · obtain ⟨rfl, -⟩ := List.cons.inj hr
        exact h.1 ⟨l, rfl⟩
    rw [List.cons_append, List.cons_append, splitCrlf.eq_3 c _ hfirst, ih h.2, List.modifyHead_cons]

theorem splitCrlf_join (s : List Char) : crlf.intercalate (splitCrlf s) = s := by
  induction s using splitCrlf.induct with
  | case1 => rfl
  | case2 s ih =>
    obtain ⟨l, ls, hs⟩ := List.exists_cons_of_ne_nil (splitCrlf_ne_nil s)
    rw [splitCrlf, hs, List.intercalate_cons_cons, ← hs, ih]
    rfl
  | case3 c s hc ih =>
    obtain ⟨l, ls, hs⟩ := List.exists_cons_of_ne_nil (splitCrlf_ne_nil s)
    rw [splitCrlf.eq_3 c s hc, hs, List.modifyHead_cons, List.intercalate_cons_cons_left, ← hs, ih]

theorem splitCrlf_head {ls : List (List Char)} (h : splitCrlf s = l :: ls) : l <+: s := by
  rw [← splitCrlf_join s, h]
  cases ls with
  | nil => rw [List.intercalate_singleton]
  | cons l' ls =>
    rw [List.intercalate_cons_cons, List.append_assoc]
    exact List.prefix_append l _

theorem not_crlf_of_mem (h : l ∈ splitCrlf s) : ¬ crlf <:+: l := by
  induction s using splitCrlf.induct generalizing l with
  | case1 =>
    obtain rfl : l = [] := by simpa [splitCrlf] using h
    simp [crlf]
  | case2 s ih =>
    rw [splitCrlf, List.mem_cons] at h
    rcases h with rfl | h
    · simp [crlf]
    · exact ih h
  | case3 c s hc ih =>
    obtain ⟨d, ds, hs⟩ := List.exists_cons_of_ne_nil (splitCrlf_ne_nil s)
    rw [splitCrlf.eq_3 c s hc, hs, List.modifyHead_cons, List.mem_cons] at h
    rw [hs] at ih
    rcases h with rfl | h
    · rw [List.infix_cons_iff, not_or]
      refine ⟨fun hpre => ?_, ih List.mem_cons_self⟩
      obtain ⟨r, hr⟩ := hpre
      obtain ⟨rfl, rfl⟩ := List.cons.inj hr
      obtain ⟨u, rfl⟩ := splitCrlf_head hs
      exact hc _ rfl rfl
    · exact ih (List.mem_cons_of_mem d h)

theorem crlf_append (h : '\r' ∉ s) (t : List Char) : crlf <:+: s ++ t ↔ crlf <:+: t := by
  induction s with
  | nil => rfl
  | cons c s ih =>
    rw [List.mem_cons, not_or] at h
    rw [List.cons_append, List.infix_cons_iff, ih h.2, or_iff_right]
    rintro ⟨r, hr⟩
    exact h.1 (List.cons.inj hr).1

theorem crlf_append_space (h : '\r' ∉ t) : crlf <:+: s ++ ' ' :: t ↔ crlf <:+: s := by
  induction s with
  | nil => simpa [crlf, List.infix_cons_iff] using not_infix_of_not_mem (by simp) h
  | cons c s ih =>
    rw [List.cons_append, List.infix_cons_iff, List.infix_cons_iff, ih]
    refine or_congr_left ?_
    cases s with
    | nil => simp [crlf]
    | cons d s => simp [crlf]

theorem mem_of_mem_splitOn {c : Char} (sep : Char) (hc : c ∈ s) :
    c = sep ∨ ∃ part ∈ s.splitOn sep, c ∈ part := by
  induction s with
  | nil => cases hc
  | cons d s ih =>
    obtain ⟨w, ws, hs⟩ := List.exists_cons_of_ne_nil (List.splitOn_ne_nil sep s)
    rw [List.splitOn_cons_eq_if_modifyHead, hs]
    rw [hs] at ih
    split
    · rename_i hd
      rcases List.mem_cons.mp hc with rfl | hc
      · exact .inl (eq_of_beq hd)
      · exact (ih hc).imp_right fun ⟨part, hpart, hmem⟩ =>
          ⟨part, List.mem_cons_of_mem _ hpart, hmem⟩
    · rw [List.modifyHead_cons]
      rcases List.mem_cons.mp hc with rfl | hc
      · exact .inr ⟨_, List.mem_cons_self, List.mem_cons_self⟩
      · rcases ih hc with hsep | ⟨part, hpart, hmem⟩
        · exact .inl hsep
        · rcases List.mem_cons.mp hpart with rfl | hpart
          · exact .inr ⟨_, List.mem_cons_self, List.mem_cons_of_mem _ hmem⟩
          · exact .inr ⟨part, List.mem_cons_of_mem _ hpart, hmem⟩

end Lines

section Hosts

variable {s : List Char} {c : Char}

def Plain (c : Char) : Prop := c ≠ ' ' ∧ c ≠ '\r'

theorem plain_of_digit (h : (digit c).isSome = true) : Plain c := by
  constructor <;>
  · rintro rfl
    exact absurd h (by decide)

theorem plain_of_isLabelChar (h : isLabelChar c = true) : Plain c := by
  constructor <;>
  · rintro rfl
    exact absurd h (by decide)

theorem plain_dot : Plain '.' := ⟨by decide, by decide⟩

theorem foldlM_digits {bound : ℕ} {n m : ℕ}
    (h : s.foldlM (fun n c => (digit c).bind fun d => if n * 10 + d < bound then some (n * 10 + d)
      else none) n = some m) : ∀ c ∈ s, (digit c).isSome = true := by
  induction s generalizing n with
  | nil => simp
  | cons c s ih =>
    rw [List.foldlM_cons] at h
    obtain ⟨k, hk, hrest⟩ := Option.bind_eq_some_iff.mp h
    obtain ⟨d, hd, -⟩ := Option.bind_eq_some_iff.mp hk
    rw [List.forall_mem_cons]
    exact ⟨Option.isSome_of_eq_some hd, ih hrest⟩

theorem parseUsize_plain {n : ℕ} (h : parseUsize s = some n) : ∀ c ∈ s, Plain c := by
  simp only [parseUsize] at h
  split at h
  · split at h
    · cases h
    · rename_i hplus _
      obtain ⟨t, rfl⟩ := List.head?_eq_some_iff.mp hplus
      rw [List.forall_mem_cons]
      exact ⟨⟨by decide, by decide⟩, fun c hc => plain_of_digit (foldlM_digits h c hc)⟩
  · split at h
    · cases h
    · exact fun c hc => plain_of_digit (foldlM_digits h c hc)

theorem parseOctet_digits {o : ℕ} (h : parseOctet s = some o) :
    (∀ c ∈ s, (digit c).isSome = true) ∧ o < 256 := by
  rw [parseOctet] at h
  split at h
  · cases h
  · rename_i hs
    rw [not_or, not_not] at hs
    rw [parseBelow, Option.filter_eq_some_iff] at h
    exact ⟨fun c hc => List.all_eq_true.mp hs.2 c hc, by simpa using h.2⟩

theorem mapM_some {α β : Type} {f : α → Option β} {l : List α} {r : List β}
    (h : l.mapM f = some r) :
    r.length = l.length ∧ (∀ x ∈ l, ∃ y, f x = some y) ∧ ∀ y ∈ r, ∃ x ∈ l, f x = some y := by
  induction l generalizing r with
  | nil =>
    obtain rfl : r = [] := by simpa using h.symm
    simp
  | cons x l ih =>
    rw [List.mapM_cons] at h
    obtain ⟨y, hy, hrest⟩ := Option.bind_eq_some_iff.mp h
    obtain ⟨ys, hys, heq⟩ := Option.bind_eq_some_iff.mp hrest
    obtain rfl : r = y :: ys := (Option.some.inj heq).symm
    obtain ⟨hlen, hall, hback⟩ := ih hys
    refine ⟨by rw [List.length_cons, List.length_cons, hlen], ?_, ?_⟩
    · rw [List.forall_mem_cons]
      exact ⟨⟨y, hy⟩, hall⟩
    · rw [List.forall_mem_cons]
      refine ⟨⟨x, List.mem_cons_self, hy⟩, fun z hz => ?_⟩
      obtain ⟨w, hw, hfw⟩ := hback z hz
      exact ⟨w, List.mem_cons_of_mem x hw, hfw⟩

theorem parseIpv4_some {o : List ℕ} (h : parseIpv4 s = some o) :
    o.length = 4 ∧ (∀ n ∈ o, n < 256) ∧ ∀ c ∈ s, Plain c := by
  rw [parseIpv4] at h
  split at h
  · rename_i hlen
    obtain ⟨hlen', hall, hback⟩ := mapM_some h
    refine ⟨hlen'.trans hlen, fun n hn => ?_, fun c hc => ?_⟩
    · obtain ⟨part, -, hpart⟩ := hback n hn
      exact (parseOctet_digits hpart).2
    · rcases mem_of_mem_splitOn '.' hc with rfl | ⟨part, hpart, hmem⟩
      · exact plain_dot
      · obtain ⟨n, hn⟩ := hall part hpart
        exact plain_of_digit ((parseOctet_digits hn).1 c hmem)
  · cases h

theorem isHostname_plain (h : isHostname s = true) : ∀ c ∈ s, Plain c := by
  simp only [isHostname, Bool.and_eq_true] at h
  have hlabels : ∀ part ∈ (if s.getLast? = some '.' then s.dropLast else s).splitOn '.',
      part.all isLabelChar = true := by
    intro part hpart
    have hlab := List.all_eq_true.mp h.2 part hpart
    simp only [Bool.and_eq_true] at hlab
    exact hlab.2
  have hstripped : ∀ c ∈ (if s.getLast? = some '.' then s.dropLast else s), Plain c := by
    intro c hc
    rcases mem_of_mem_splitOn '.' hc with rfl | ⟨part, hpart, hmem⟩
    · exact plain_dot
    · exact plain_of_isLabelChar (List.all_eq_true.mp (hlabels part hpart) c hmem)
  intro c hc
  split at hstripped
  · rename_i hlast
    obtain ⟨t, rfl⟩ := List.getLast?_eq_some_iff.mp hlast
    rw [List.dropLast_concat] at hstripped
    rcases List.mem_append.mp hc with hc | hc
    · exact hstripped c hc
    · rw [List.mem_singleton.mp hc]
      exact plain_dot
  · exact hstripped c hc

theorem parseHost_plain {host : Host} (h : parseHost s = some host) : ∀ c ∈ s, Plain c := by
  rw [parseHost] at h
  split at h
  · rename_i haddr
    exact (parseIpv4_some haddr).2.2
  · split at h
    · rename_i hname
      exact isHostname_plain hname
    · cases h

theorem parseAuthority_plain {host : List Char} {port d : ℕ}
    (h : parseAuthority s d = some (host, port)) (hhost : ∀ c ∈ host, Plain c) :
    ∀ c ∈ s, Plain c := by
  rw [parseAuthority] at h
  split at h
  · rename_i hd p hsplit
    obtain ⟨q, hp, hq⟩ := Option.bind_eq_some_iff.mp h
    obtain ⟨⟨a, b⟩, hrev, heq⟩ := Option.map_eq_some_iff.mp hsplit
    obtain ⟨rfl, rfl⟩ := Prod.mk.inj heq
    obtain ⟨sep, hsep, hrevs, -⟩ := splitOnce_some hrev
    obtain rfl : sep = ':' := by simpa using hsep
    split at hq
    · cases hq
    · obtain ⟨rfl, rfl⟩ := Prod.mk.inj (Option.some.inj hq)
      rw [parseBelow, Option.filter_eq_some_iff] at hp
      have hs : s = b.reverse ++ ':' :: a.reverse := by
        rw [← List.reverse_reverse s, hrevs, List.reverse_append, List.reverse_cons,
          List.append_assoc]
        rfl
      rw [hs]
      intro c hc
      rcases List.mem_append.mp hc with hc | hc
      · exact hhost c hc
      · rcases List.mem_cons.mp hc with rfl | hc
        · exact ⟨by decide, by decide⟩
        · exact parseUsize_plain hp.1 c hc
  · obtain ⟨rfl, rfl⟩ := Prod.mk.inj (Option.some.inj h)
    exact hhost

theorem parseOctet_toDigits {n : ℕ} (h : n < 256) : parseOctet (Nat.toDigits 10 n) = some n := by
  have hall : ∀ n < 256, parseOctet (Nat.toDigits 10 n) = some n := by decide +kernel
  exact hall n h

theorem parseIpv4_dotted {o : List ℕ} (hlen : o.length = 4) (h : ∀ n ∈ o, n < 256) :
    parseIpv4 (dotted o) = some o := by
  have hparts : (dotted o).splitOn '.' = o.map (Nat.toDigits 10) := by
    apply List.splitOn_intercalate
    · intro l hl hdot
      obtain ⟨n, hn, rfl⟩ := List.mem_map.mp hl
      exact absurd ((parseOctet_digits (parseOctet_toDigits (h n hn))).1 '.' hdot) (by decide)
    · intro hnil
      rw [List.map_eq_nil_iff.mp hnil] at hlen
      cases hlen
  have hoctets : (o.map (Nat.toDigits 10)).mapM parseOctet = some o := by
    clear hlen hparts
    induction o with
    | nil => rfl
    | cons n o ih =>
      rw [List.forall_mem_cons] at h
      rw [List.map_cons, List.mapM_cons, parseOctet_toDigits h.1, ih h.2]
      rfl
  rw [parseIpv4, hparts, List.length_map, if_pos hlen, hoctets]

theorem parseHost_hostText {host : Host} (h : parseHost s = some host) :
    parseHost (hostText host) = some host := by
  have hs := h
  rw [parseHost] at h
  split at h
  · rename_i addr haddr
    obtain rfl := Option.some.inj h
    obtain ⟨hlen, hall, -⟩ := parseIpv4_some haddr
    rw [hostText, parseHost, parseIpv4_dotted hlen hall]
  · split at h
    · obtain rfl := Option.some.inj h
      exact hs
    · cases h

end Hosts

section Requests

variable {s : List Char} {url : Url}

theorem parseRest_some {scheme : Scheme} {d : ℕ} (h : parseRest scheme d s = some url) :
    ∃ front path host, s = front ++ path ∧ (∀ c ∈ front, Plain c) ∧
    url.path = (if path = [] then ['/'] else path) ∧ parseHost host = some url.host := by
  rw [parseRest] at h
  split at h
  · cases h
  · simp only [Option.bind_eq_bind] at h
    split at h
    · cases h
    · obtain ⟨⟨host, port⟩, hauthority, hrest⟩ := Option.bind_eq_some_iff.mp h
      obtain ⟨host', hhost, heq⟩ := Option.bind_eq_some_iff.mp hrest
      obtain rfl := Option.some.inj heq
      exact ⟨s.takeWhile (· ≠ '/'), s.dropWhile (· ≠ '/'), host,
        List.takeWhile_append_dropWhile.symm, parseAuthority_plain hauthority
          (parseHost_plain hhost), rfl, hhost⟩

theorem stripPrefix_some {p t : List Char} (h : stripPrefix p s = some t) : s = p ++ t := by
  rw [stripPrefix] at h
  split at h
  · rename_i hp
    obtain ⟨u, rfl⟩ := hp
    rw [← Option.some.inj h, List.drop_left]
  · cases h

theorem parseUrl_some (h : parseUrl s = some url) :
    ∃ front path host, s = front ++ path ∧ (∀ c ∈ front, Plain c) ∧
    url.path = (if path = [] then ['/'] else path) ∧ parseHost host = some url.host := by
  have hscheme : ∃ p t scheme d, stripPrefix p s = some t ∧ (∀ c ∈ p, Plain c) ∧
      parseRest scheme d t = some url := by
    rw [parseUrl] at h
    split at h
    · rename_i t hs
      exact ⟨_, t, .http, 80, hs, by simp [Plain], h⟩
    · split at h
      · rename_i t hs
        exact ⟨_, t, .https, 443, hs, by simp [Plain], h⟩
      · cases h
  obtain ⟨p, t, scheme, d, hs, hp, ht⟩ := hscheme
  obtain ⟨front, path, host, rfl, hfront, hpath, hhost⟩ := parseRest_some ht
  refine ⟨p ++ front, path, host, ?_, ?_, hpath, hhost⟩
  · rw [stripPrefix_some hs, List.append_assoc]
  · intro c hc
    exact (List.mem_append.mp hc).elim (hp c) (hfront c)

theorem harmless_append {front path : List Char} (h : ∀ c ∈ front, Plain c) :
    Harmless (front ++ path) ↔ Harmless path := by
  have hspace : ' ' ∉ front := fun hmem => (h _ hmem).1 rfl
  have hreturn : '\r' ∉ front := fun hmem => (h _ hmem).2 rfl
  rw [Harmless, Harmless, crlf_append hreturn, List.mem_append, not_or, and_iff_right hspace]

theorem requestLine_split {path : List Char} (h : ' ' ∉ path) :
    (requestLine path).splitOn ' ' = ["GET".toList, path, "HTTP/1.0".toList] := by
  have hline : requestLine path = "GET".toList ++ ' ' :: (path ++ ' ' :: "HTTP/1.0".toList) := by
    simp [requestLine]
  rw [hline, List.splitOn_append_cons_self_of_not_mem (by simp),
    List.splitOn_append_cons_self_of_not_mem h, List.splitOn_eq_singleton (by simp)]

theorem requestLine_crlf (path : List Char) : crlf <:+: requestLine path ↔ crlf <:+: path := by
  have hline : requestLine path = "GET ".toList ++ (path ++ ' ' :: "HTTP/1.0".toList) := by
    simp [requestLine]
  rw [hline, crlf_append (by simp), crlf_append_space (by simp)]

theorem oneRequest_path (hhost : parseHost (hostText url.host) = some url.host) :
    OneRequest (request url) url ↔ Harmless url.path := by
  constructor
  · rintro ⟨line, value, hsplit, hline, -⟩
    have hpath : url.path ∈ line.splitOn ' ' := by simp [hline]
    have hmem : line ∈ splitCrlf (request url) := by simp [hsplit]
    have hjoin : [' '].intercalate (line.splitOn ' ') = line := List.intercalate_splitOn ' '
    have hpart : url.path <:+: line := by
      rw [← hjoin, hline]
      exact ⟨"GET ".toList, " HTTP/1.0".toList, by simp⟩
    exact ⟨(mem_splitOn hpath).1, fun hcrlf => not_crlf_of_mem hmem (hcrlf.trans hpart)⟩
  · rintro ⟨hspace, hcrlf⟩
    refine ⟨requestLine url.path, hostText url.host, ?_, requestLine_split hspace, hhost⟩
    have hheader : ¬ crlf <:+: "Host: ".toList ++ hostText url.host := by
      rw [crlf_append (by simp)]
      exact not_infix_of_not_mem List.mem_cons_self fun hmem => (parseHost_plain hhost _ hmem).2 rfl
    have hreq :
        request url = requestLine url.path ++ crlf ++
          ("Host: ".toList ++ hostText url.host ++ crlf ++ ([] ++ crlf ++ [])) := by
      simp [request]
    rw [hreq, splitCrlf_line (by rwa [requestLine_crlf]), splitCrlf_line hheader,
      splitCrlf_line (by decide)]
    rfl

theorem url_request_iff (h : parseUrl s = some url) :
    OneRequest (plainRequest url) url ∧ OneRequest (tlsRequest url) url ↔ Harmless s := by
  obtain ⟨front, path, host, rfl, hfront, hpath, hhost⟩ := parseUrl_some h
  rw [plainRequest, tlsRequest, and_self, oneRequest_path (parseHost_hostText hhost),
    harmless_append hfront, hpath]
  split
  · rename_i hnil
    rw [hnil]
    decide
  · rfl

end Requests

def portUrl : List Char := "http://os.test:81/a".toList
def injectingUrl : List Char := "http://os.test/ HTTP/1.0\r\nX: y".toList

theorem url_request_port :
    parseUrl portUrl = some ⟨.http, .name "os.test".toList, 81, "/a".toList⟩ ∧ Harmless portUrl ∧
    (OneRequest (plainRequest ⟨.http, .name "os.test".toList, 81, "/a".toList⟩) ⟨.http,
      .name "os.test".toList, 81, "/a".toList⟩ ∧
      OneRequest (tlsRequest ⟨.http, .name "os.test".toList, 81, "/a".toList⟩)
        ⟨.http, .name "os.test".toList, 81, "/a".toList⟩) := by
  have hurl : parseUrl portUrl = some ⟨.http, .name "os.test".toList, 81, "/a".toList⟩ := by decide
  have hharmless : Harmless portUrl := by decide
  exact ⟨hurl, hharmless, (url_request_iff hurl).mpr hharmless⟩

/-- The path carries a header of its own. -/
theorem url_injects_header :
    ∃ url, parseUrl injectingUrl = some url ∧ splitCrlf (plainRequest url) =
      ["GET / HTTP/1.0".toList, "X: y HTTP/1.0".toList, "Host: os.test".toList, [], []] ∧
    ¬ (OneRequest (plainRequest url) url ∧ OneRequest (tlsRequest url) url) := by
  have hsplit :
      splitCrlf (plainRequest ⟨.http, .name "os.test".toList, 80, "/ HTTP/1.0\r\nX: y".toList⟩) =
      ["GET / HTTP/1.0".toList, "X: y HTTP/1.0".toList, "Host: os.test".toList, [], []] := by decide
  refine ⟨⟨.http, .name "os.test".toList, 80, "/ HTTP/1.0\r\nX: y".toList⟩, by decide, hsplit, ?_⟩
  rintro ⟨⟨line, value, hlines, -⟩, -⟩
  rw [hsplit] at hlines
  have hlen := congrArg List.length hlines
  simp at hlen

end CoeleoOs.Net
