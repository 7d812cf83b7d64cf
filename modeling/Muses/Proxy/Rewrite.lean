import Muses.Http.Message

/-!
# What the proxy reads from a head and what it sends on

The pure parts of `muses/net_components/proxy.hpp`: looking up header fields, the choice of a
route, and the text that goes upstream.
-/

namespace Muses.Proxy

open Muses.Core Text Search HttpContext Http List

/-! ## Header fields -/

def iequals (a b : Bytes) : Bool :=
  a.length = b.length && (a.zip b).all fun p => toLower p.1 = toLower p.2

def headerGet (headers : HeaderMap) (name : Bytes) : Bytes :=
  match headers.entries.find? fun e => iequals e.1 name with
  | some e => e.2
  | none => []

def isHopByHop (name : Bytes) : Bool :=
  ["connection", "keep-alive", "proxy-authenticate", "proxy-authorization", "te", "trailer",
    "transfer-encoding", "upgrade"].any fun h => iequals name (ascii h)

def bodyLength (cl : Bytes) : Nat := if cl = [] then 0 else (stoull cl).getD 0

theorem iequals_iff {a b : Bytes} : iequals a b = true ↔ a.map toLower = b.map toLower := by
  unfold iequals
  rw [Bool.and_eq_true, decide_eq_true_eq]
  induction a generalizing b with
  | nil => cases b <;> simp
  | cons x a ih =>
    cases b with
    | nil => simp
    | cons y b =>
      simp only [length_cons, Nat.add_right_cancel_iff, zip_cons_cons, all_cons,
        Bool.and_eq_true, decide_eq_true_eq, map_cons, List.cons.injEq, ← ih]
      tauto

/-! ## Lookups in a parsed head -/

variable {name : Bytes} {h : Head}

theorem named_of_iequals {f : Field} (hname : 58 ∉ name) (h : iequals f.entry.1 name = true) :
    f.Named name := by
  have hmap := iequals_iff.mp h
  rcases f.splitLine_line.2 with hkey | hkey
  · rwa [hkey] at hmap
  · -- a colon in the key would be one in the name
    have hcolon : 58 ∈ name.map toLower := hmap ▸ mem_map_of_mem (f := toLower) hkey
    obtain ⟨b, hb, hlow⟩ := mem_map.mp hcolon
    exact absurd (eq_of_toLower_eq hlow (by decide) ▸ hb) hname

theorem exists_field_of_mem {e : Bytes × Bytes} (he : e ∈ h.headers.entries) :
    ∃ f ∈ h.fields, f.entry = e := by
  rcases OrderedMap.mem_of_mem_assignAll he with he | he
  · exact mem_map.mp he
  · exact absurd he not_mem_nil

theorem headerGet_of_lacks (hname : 58 ∉ name) (hlacks : h.Lacks name) :
    headerGet h.headers name = [] := by
  unfold headerGet
  split
  · next e hfind =>
    obtain ⟨f, hf, rfl⟩ := exists_field_of_mem (mem_of_find?_eq_some hfind)
    have hiequals := find?_some hfind
    exact absurd (named_of_iequals hname hiequals) (hlacks f hf)
  · rfl

theorem headerGet_of_only {f : Field} (hname : 58 ∉ name) (honly : h.Only name f)
    (hvalue : 58 ∉ f.value) : headerGet h.headers name = strip f.value := by
  obtain ⟨before, after, hfields, hnamed, hothers⟩ := honly
  have hentry := Field.entry_of_splits (.inr (find_eq_none_of_notMem hvalue))
  have hiequals : iequals f.entry.1 name = true := by
    rw [hentry]
    exact iequals_iff.mpr hnamed
  -- the entry of any field that is found under the name is the one of this field
  have hsame (e : Bytes × Bytes) (he : e ∈ h.headers.entries) (hfound : iequals e.1 name = true) :
      e = f.entry := by
    obtain ⟨g, hg, rfl⟩ := exists_field_of_mem he
    have hgname := named_of_iequals hname hfound
    rw [hfields, mem_append, mem_cons] at hg
    rcases hg with hg | rfl | hg
    · exact absurd hgname (hothers g (mem_append_left _ hg))
    · rfl
    · exact absurd hgname (hothers g (mem_append_right _ hg))
  unfold headerGet
  split
  · next e hfind =>
    have hfound := find?_some hfind
    rw [hsame e (mem_of_find?_eq_some hfind) hfound, hentry]
  · next hfind =>
    have hf : f.entry ∈ h.fields.map Field.entry := mem_map_of_mem (by simp [hfields])
    obtain ⟨e, he, hkey, -⟩ := OrderedMap.exists_mem_assignAll (m := .empty) hf
    exact absurd (hkey ▸ hiequals) (find?_eq_none.mp hfind e he)

theorem bodyLength_of_lacks (hlacks : h.Lacks contentLength) :
    bodyLength (headerGet h.headers contentLength) = 0 := by
  rw [headerGet_of_lacks (by decide) hlacks]
  rfl

theorem bodyLength_of_sizes {n : Nat} (hsizes : h.Sizes n) :
    headerGet h.headers contentLength ≠ [] ∧
      bodyLength (headerGet h.headers contentLength) = n := by
  obtain ⟨⟨f, honly, hdenotes⟩, hfits⟩ := hsizes
  rw [headerGet_of_only (by decide) honly hdenotes.notMem_colon]
  have hstrip := hdenotes.strip
  refine ⟨hstrip.ne_nil, ?_⟩
  simp [bodyLength, hstrip.ne_nil, hstrip.stoull hfits]

/-! ## Routes and the rewritten request -/

structure ProxyRoute where
  pathPrefix : Bytes
  host : Bytes
  port : UInt16
  deriving DecidableEq, Repr

def upstreamKey (host : Bytes) (port : UInt16) : Bytes := host ++ ascii ":" ++ decimal port.toNat

def ProxyRoute.key (r : ProxyRoute) : Bytes := upstreamKey r.host r.port

def selectRoute (routes : List ProxyRoute) (url : Bytes) : Option ProxyRoute :=
  match routes.find? fun r => r.pathPrefix.isPrefixOf url with
  | some r => some r
  | none => routes.getLast?

theorem selectRoute_mem {routes : List ProxyRoute} {url : Bytes} {r : ProxyRoute}
    (h : selectRoute routes url = some r) : r ∈ routes := by
  unfold selectRoute at h
  split at h
  · next hfind =>
    cases h
    exact mem_of_find?_eq_some hfind
  · exact mem_of_getLast? h

def fwdHead (info : HttpInfo) : Bytes :=
  info.method ++ ascii " " ++ info.url ++ ascii " " ++ info.version ++ crlf ++
    ((info.headers.entries.filter fun e => !isHopByHop e.1).map fun e =>
      e.1 ++ ascii ": " ++ e.2 ++ crlf).flatten ++
    ascii "X-Forwarded-Proto: http" ++ crlf ++ crlf

def fwdRequest (info : HttpInfo) (body : Bytes) : Bytes := fwdHead info ++ body

def forwardText (r : Request) : Bytes := fwdRequest (parseRequest r.head.text) r.body

theorem fwdHead_parse (h : Head) (rest : Bytes) :
    fwdHead (parseRequest (h.text ++ rest)) = fwdHead (parseRequest h.text) := by
  have hbare := parseRequest_text h []
  rw [append_nil] at hbare
  rw [hbare, parseRequest_text]
  rfl

end Muses.Proxy
