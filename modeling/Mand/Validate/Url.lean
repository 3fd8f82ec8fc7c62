import Mand.Lib.Scan
import Mand.Lib.Shell
import Mand.Save.Serialize

/-! # URLs of TFTP servers

`parse_tftp_url` of `dm_validate.c` with the functions that check the parts, and the command lines that
`dm_cfg_bkrst.c` makes of them. -/
namespace Mand.Validate
open Mand.Decimal Mand.Save
set_option autoImplicit false

/-! ## The functions -/

/-- The states of `isvalhostname`. -/
inductive HostState
  | valchar
  | dash
  | dot
  deriving DecidableEq, Repr

def valchar (c : ℕ) : Bool := 97 ≤ c ∧ c ≤ 122 ∨ 65 ≤ c ∧ c ≤ 90 ∨ 48 ≤ c ∧ c ≤ 57

/-- The loop of `isvalhostname`; nothing where it returns. The switch has no default. -/
def hostLoop : List ℕ → HostState → Option HostState
  | [], state => some state
  | c :: pos, state =>
    if valchar c = true then hostLoop pos .valchar
    else if c = 45 then if state = .dot then none else hostLoop pos .dash
    else if c = 46 then if state = .dot ∨ state = .dash then none else hostLoop pos .dot
    else hostLoop pos state

def isvalhostname (host : List ℕ) : Bool := hostLoop host .dot = some .valchar ∧ 4 ≤ host.length

/-- The cases of `isvalpath`. -/
def badpath (c : ℕ) : Bool := 33 ≤ c ∧ c ≤ 44 ∨ 58 ≤ c ∧ c ≤ 64 ∨ 91 ≤ c ∧ c ≤ 93 ∨ c = 96 ∨ c = 124

def isvalpath (path : List ℕ) : ℕ := if path.any badpath = true then 0 else path.length

/-- `errno` is set only if the number is outside the range of a `long`. -/
def isport (digit : List ℕ) : ℕ :=
  let r := Scan.strtol digit
  if r.2 = [] ∧ r.1 < 0xFFFF ∧ 0 < r.1 then r.1.toNat else 0

/-- `DEFAULTFILE` and `FULLPATH`. -/
inductive PathKind
  | defaultfile
  | fullpath
  deriving DecidableEq, Repr

structure TftpUrl where
  kind : PathKind
  host : List ℕ
  path : List ℕ
  port : ℕ
  deriving DecidableEq, Repr

/-- `*end = '\0'`: the string up to there, and what is behind it. -/
def cut (pos : List ℕ) (end' : Option ℕ) : List ℕ × List ℕ :=
  match end' with
  | some i => (pos.take i, pos.drop (i + 1))
  | none => (pos, [])

/-- `strncasecmp` with the scheme. -/
def tolower (c : ℕ) : ℕ := if 65 ≤ c ∧ c ≤ 90 then c + 32 else c

/-- The last part of `parse_tftp_url`. -/
def parsePath (host path : List ℕ) (port : ℕ) : Option TftpUrl :=
  if path = [] then some ⟨.defaultfile, host, path, port⟩
  else
    let l := isvalpath path
    if l = 0 then none
    else if path.getD (l - 1) 0 = 47 then some ⟨.defaultfile, host, path, port⟩
    else some ⟨.fullpath, host, path, port⟩

/-- Nothing for -1. -/
def parseTftpUrl (url : Option (List ℕ)) : Option TftpUrl := do
  let url ← url
  if (url.take 7).map tolower ≠ ascii "tftp://" then none
  else
    let pos := url.drop 7
    let colon := pos.idxOf? 58
    let parts := cut pos (if colon ≠ none then colon else pos.idxOf? 47)
    if isvalhostname parts.1 = false then none
    else if colon ≠ none then
      let parts' := cut parts.2 (parts.2.idxOf? 47)
      let port := isport parts'.1
      if port = 0 then none else parsePath parts.1 parts'.2 port
    else parsePath parts.1 parts.2 69

/-- `SIGNED_CONFIG`, and that without its directory. -/
def signedConfig : List ℕ := ascii "/tmp/signed.cfg"

def fileName (kind : PathKind) : List ℕ := if kind = .defaultfile then signedConfig.drop 5 else []

/-- The command of `save_conf`. -/
def saveCommand (u : TftpUrl) : List ℕ :=
  ascii "tftp -p -l " ++ signedConfig ++ ascii " -r \"" ++ u.path ++ fileName u.kind ++ ascii "\" \"" ++ u.host ++
    ascii "\" " ++ decimal u.port

/-- The command of `restore_conf`. -/
def restoreCommand (u : TftpUrl) : List ℕ :=
  ascii "tftp -g -r \"" ++ u.path ++ fileName u.kind ++ ascii "\" -l " ++ signedConfig ++ ascii " \"" ++ u.host ++
    ascii "\" " ++ decimal u.port

/-- What `vasystem` passes on. -/
def vasystem (command : List ℕ) : List ℕ := command.take 1023

/-! ## What is safe -/

/-- Letters, digits, dots and dashes. -/
def HostChar (c : ℕ) : Prop := valchar c = true ∨ c = 46 ∨ c = 45

def saveArgs (u : TftpUrl) : List (List ℕ) :=
  [ascii "tftp", ascii "-p", ascii "-l", signedConfig, ascii "-r", u.path ++ fileName u.kind, u.host, decimal u.port]

def restoreArgs (u : TftpUrl) : List (List ℕ) :=
  [ascii "tftp", ascii "-g", ascii "-r", u.path ++ fileName u.kind, ascii "-l", signedConfig, u.host, decimal u.port]

/-- No character of the parts has a meaning for the shell, and both commands get the parts as arguments. -/
structure TftpSafe (u : TftpUrl) : Prop where
  host : ∀ c ∈ u.host, HostChar c
  path : ∀ c ∈ u.path, c ≠ 34 ∧ c ≠ 36 ∧ c ≠ 96 ∧ c ≠ 92
  port : 1 ≤ u.port ∧ u.port ≤ 65534
  save : Shell.parse (vasystem (saveCommand u)) = some (saveArgs u)
  restore : Shell.parse (vasystem (restoreCommand u)) = some (restoreArgs u)

/-! ## The parts of a URL -/

/-- What ends the host: the first colon, or else the first slash. -/
def hostEnd (pos : List ℕ) : ℕ := if 58 ∈ pos then 58 else 47

def hostPart (url : List ℕ) : List ℕ := (url.drop 7).takeWhile (· ≠ hostEnd (url.drop 7))

def behindHost (url : List ℕ) : List ℕ := ((url.drop 7).dropWhile (· ≠ hostEnd (url.drop 7))).tail

def portPart (url : List ℕ) : ℕ := if 58 ∈ url.drop 7 then isport ((behindHost url).takeWhile (· ≠ 47)) else 69

def pathPart (url : List ℕ) : List ℕ := if 58 ∈ url.drop 7 then ((behindHost url).dropWhile (· ≠ 47)).tail else behindHost url

def kindPart (url : List ℕ) : PathKind :=
  if pathPart url = [] ∨ (pathPart url).getD ((pathPart url).length - 1) 0 = 47 then .defaultfile else .fullpath

def urlParts (url : List ℕ) : TftpUrl := ⟨kindPart url, hostPart url, pathPart url, portPart url⟩

theorem cut_idxOf (pos : List ℕ) (c : ℕ) : cut pos (pos.idxOf? c) = (pos.takeWhile (· ≠ c), (pos.dropWhile (· ≠ c)).tail) := by
  induction pos with
  | nil => rfl
  | cons x pos ih =>
    rw [List.idxOf?_cons]
    by_cases hx : x = c
    · simp [hx, cut]
    · have hfst := congrArg Prod.fst ih
      have hsnd := congrArg Prod.snd ih
      dsimp only at hfst hsnd
      rw [if_neg (by simpa using hx), List.takeWhile_cons_of_pos (by simpa using hx),
        List.dropWhile_cons_of_pos (by simpa using hx), ← hfst, ← hsnd]
      cases pos.idxOf? c <;> rfl

theorem isvalpath_ne_zero {path : List ℕ} (h : isvalpath path ≠ 0) :
    isvalpath path = path.length ∧ ∀ c ∈ path, badpath c = false := by
  have hany : path.any badpath ≠ true := fun hany => h (if_pos hany)
  refine ⟨if_neg hany, fun c hc => ?_⟩
  by_contra hbad
  exact hany (List.any_eq_true.mpr ⟨c, hc, by simpa using hbad⟩)

theorem parsePath_spec {host path : List ℕ} {port : ℕ} {u : TftpUrl} (h : parsePath host path port = some u) :
    u = ⟨if path = [] ∨ path.getD (path.length - 1) 0 = 47 then .defaultfile else .fullpath, host, path, port⟩ ∧
      ∀ c ∈ path, badpath c = false := by
  unfold parsePath at h
  dsimp only at h
  split_ifs at h with hnil hzero hslash
  · cases h
    simp [hnil]
  · obtain ⟨hlen, hbad⟩ := isvalpath_ne_zero hzero
    rw [hlen] at hslash
    cases h
    exact ⟨by rw [if_pos (.inr hslash)], hbad⟩
  · obtain ⟨hlen, hbad⟩ := isvalpath_ne_zero hzero
    rw [hlen] at hslash
    cases h
    exact ⟨by rw [if_neg (not_or.mpr ⟨hnil, hslash⟩)], hbad⟩

theorem isport_range {digit : List ℕ} (h : isport digit ≠ 0) : 1 ≤ isport digit ∧ isport digit ≤ 65534 := by
  unfold isport at h ⊢
  dsimp only at h ⊢
  split_ifs at h ⊢ with hr
  · omega
  · exact absurd rfl h

theorem colon_iff (pos : List ℕ) : pos.idxOf? 58 ≠ none ↔ 58 ∈ pos := by
  rw [Ne, List.idxOf?_eq_none_iff, not_not]

theorem cut_host (url : List ℕ) :
    cut (url.drop 7) (if (url.drop 7).idxOf? 58 ≠ none then (url.drop 7).idxOf? 58 else (url.drop 7).idxOf? 47) =
      (hostPart url, behindHost url) := by
  unfold hostPart behindHost hostEnd
  by_cases h : 58 ∈ url.drop 7
  · rw [if_pos ((colon_iff _).mpr h), cut_idxOf, if_pos h]
  · rw [if_neg ((colon_iff _).not.mpr h), cut_idxOf, if_neg h]

/-- A URL that is accepted is split there, and only the path and the port are checked for all characters. -/
theorem parseTftpUrl_spec {url : List ℕ} {u : TftpUrl} (h : parseTftpUrl (some url) = some u) :
    u = urlParts url ∧ (∀ c ∈ u.path, badpath c = false) ∧ 1 ≤ u.port ∧ u.port ≤ 65534 := by
  unfold parseTftpUrl at h
  rw [Option.bind_eq_bind, Option.bind_some] at h
  dsimp only at h
  rw [cut_host, cut_idxOf] at h
  split_ifs at h with hscheme hhost hcolon hport
  · have hmem := (colon_iff _).mp hcolon
    obtain ⟨rfl, hbad⟩ := parsePath_spec h
    refine ⟨?_, hbad, isport_range hport⟩
    simp only [urlParts, kindPart, pathPart, portPart, if_pos hmem]
  · have hmem := (colon_iff _).not.mp hcolon
    obtain ⟨rfl, hbad⟩ := parsePath_spec h
    refine ⟨?_, hbad, by simp⟩
    simp only [urlParts, kindPart, pathPart, portPart, if_neg hmem]

/-! ## The commands -/

theorem literal_of_path {c : ℕ} (h : badpath c = false) : Shell.literal c = true ∧ c ≠ 34 ∧ c ≠ 36 ∧ c ≠ 96 ∧ c ≠ 92 := by
  simp only [badpath, decide_eq_false_iff_not] at h
  simp only [Shell.literal, List.mem_cons, List.not_mem_nil, or_false, decide_eq_true_eq]
  omega

theorem literal_of_host {c : ℕ} (h : HostChar c) : Shell.literal c = true := by
  simp only [HostChar, valchar, decide_eq_true_eq] at h
  simp only [Shell.literal, List.mem_cons, List.not_mem_nil, or_false, decide_eq_true_eq]
  omega

theorem plain_of_decimal {n c : ℕ} (h : c ∈ decimal n) : Shell.plain c = true := by
  have hdigit := decimal_digit h
  simp only [Shell.plain, List.mem_cons, List.not_mem_nil, or_false, decide_eq_true_eq]
  omega

theorem saveCommand_eq (u : TftpUrl) : saveCommand u = ascii "tftp" ++ 32 :: (ascii "-p" ++ 32 :: (ascii "-l" ++ 32 ::
    (signedConfig ++ 32 :: (ascii "-r" ++ 32 :: (34 :: ((u.path ++ fileName u.kind) ++ 34 :: 32 ::
      (34 :: (u.host ++ 34 :: 32 :: decimal u.port)))))))) := by
  simp only [saveCommand, List.append_assoc]
  rfl

theorem restoreCommand_eq (u : TftpUrl) : restoreCommand u = ascii "tftp" ++ 32 :: (ascii "-g" ++ 32 :: (ascii "-r" ++ 32 ::
    (34 :: ((u.path ++ fileName u.kind) ++ 34 :: 32 :: (ascii "-l" ++ 32 :: (signedConfig ++ 32 ::
      (34 :: (u.host ++ 34 :: 32 :: decimal u.port)))))))) := by
  simp only [restoreCommand, List.append_assoc]
  rfl

/-- Both lines have the same parts. -/
theorem length_restoreCommand (u : TftpUrl) : (restoreCommand u).length = (saveCommand u).length := by
  rw [restoreCommand_eq, saveCommand_eq]
  simp only [List.length_append, List.length_cons]
  have hp : (ascii "-p").length = 2 := rfl
  have hg : (ascii "-g").length = 2 := rfl
  omega

theorem literal_fileName (kind : PathKind) : ∀ c ∈ fileName kind, Shell.literal c = true := by
  cases kind <;> decide

theorem parse_saveCommand {u : TftpUrl} (hhost : ∀ c ∈ u.host, Shell.literal c = true)
    (hpath : ∀ c ∈ u.path, Shell.literal c = true) : Shell.parse (saveCommand u) = some (saveArgs u) := by
  have hfile : ∀ c ∈ u.path ++ fileName u.kind, Shell.literal c = true := by
    intro c hc
    refine (List.mem_append.mp hc).elim (hpath c) (fun hc => ?_)
    exact literal_fileName u.kind c hc
  rw [Shell.parse, saveCommand_eq, Shell.run_plain (by decide) (by decide), Shell.run_plain (by decide) (by decide),
    Shell.run_plain (by decide) (by decide), Shell.run_plain (by decide) (by decide), Shell.run_plain (by decide) (by decide),
    Shell.run_quoted hfile, Shell.run_quoted hhost, Shell.finish_last (fun c => plain_of_decimal) (decimal_ne_nil _)]
  rfl

theorem parse_restoreCommand {u : TftpUrl} (hhost : ∀ c ∈ u.host, Shell.literal c = true)
    (hpath : ∀ c ∈ u.path, Shell.literal c = true) : Shell.parse (restoreCommand u) = some (restoreArgs u) := by
  have hfile : ∀ c ∈ u.path ++ fileName u.kind, Shell.literal c = true := by
    intro c hc
    refine (List.mem_append.mp hc).elim (hpath c) (fun hc => ?_)
    exact literal_fileName u.kind c hc
  rw [Shell.parse, restoreCommand_eq, Shell.run_plain (by decide) (by decide), Shell.run_plain (by decide) (by decide),
    Shell.run_plain (by decide) (by decide), Shell.run_quoted hfile, Shell.run_plain (by decide) (by decide),
    Shell.run_plain (by decide) (by decide), Shell.run_quoted hhost,
    Shell.finish_last (fun c => plain_of_decimal) (decimal_ne_nil _)]
  rfl

/-- Where the buffer of `vasystem` ends the line loses at least a digit of the port. -/
theorem vasystem_iff {command : List ℕ} {port : ℕ} {front : List ℕ} {args : List (List ℕ)}
    (hcommand : command = front ++ decimal port) (hargs : Shell.parse command = some args) :
    Shell.parse (vasystem command) = some args ↔ command.length < 1024 := by
  constructor
  · intro hcut
    by_contra hlong
    have hne : command.drop 1023 ≠ [] := List.ne_nil_of_length_pos (by rw [List.length_drop]; omega)
    have hlast : (command.drop 1023).getLast hne ∈ decimal port := by
      rw [List.getLast_drop]
      subst hcommand
      rw [List.getLast_append_of_ne_nil _ (decimal_ne_nil port)]
      exact List.getLast_mem _
    have hsplit : command.take 1023 ++ ((command.drop 1023).dropLast ++ [(command.drop 1023).getLast hne]) = command := by
      rw [List.dropLast_append_getLast, List.take_append_drop]
    rw [← hsplit] at hargs
    exact Shell.parse_cut (plain_of_decimal hlast) hargs hcut
  · intro hshort
    rwa [vasystem, List.take_of_length_le (by omega)]

/-- A URL is safe if and only if its host has nothing but letters, digits, dots and dashes and the command fits. -/
theorem tftpSafe_iff {url : List ℕ} {u : TftpUrl} (h : parseTftpUrl (some url) = some u) :
    TftpSafe u ↔ (∀ c ∈ hostPart url, HostChar c) ∧ (saveCommand (urlParts url)).length < 1024 := by
  obtain ⟨rfl, hbad, hport⟩ := parseTftpUrl_spec h
  have hpath : ∀ c ∈ (urlParts url).path, Shell.literal c = true := fun c hc => (literal_of_path (hbad c hc)).1
  constructor
  · intro hsafe
    have hhost : ∀ c ∈ (urlParts url).host, Shell.literal c = true := fun c hc => literal_of_host (hsafe.host c hc)
    exact ⟨hsafe.host, (vasystem_iff rfl (parse_saveCommand hhost hpath)).mp hsafe.save⟩
  · intro ⟨hchars, hfits⟩
    have hhost : ∀ c ∈ (urlParts url).host, Shell.literal c = true := fun c hc => literal_of_host (hchars c hc)
    have hfits' : (restoreCommand (urlParts url)).length < 1024 := by
      rw [length_restoreCommand]
      exact hfits
    refine ⟨hchars, fun c hc => (literal_of_path (hbad c hc)).2, hport, ?_, ?_⟩
    · exact (vasystem_iff rfl (parse_saveCommand hhost hpath)).mpr hfits
    · exact (vasystem_iff rfl (parse_restoreCommand hhost hpath)).mpr hfits'

/-- `tftp://host/cfg`. -/
theorem tftpSafe_sample : TftpSafe ⟨.fullpath, ascii "host", ascii "cfg", 69⟩ ↔
    (∀ c ∈ hostPart (ascii "tftp://host/cfg"), HostChar c) ∧ (saveCommand (urlParts (ascii "tftp://host/cfg"))).length < 1024 :=
  tftpSafe_iff (by decide)

/-- A command in the host. -/
theorem backquotes_pass : parseTftpUrl (some (ascii "tftp://ab`c`d")) = some ⟨.defaultfile, ascii "ab`c`d", [], 69⟩ ∧
    ¬TftpSafe ⟨.defaultfile, ascii "ab`c`d", [], 69⟩ := by
  refine ⟨by decide, fun h => ?_⟩
  have hquote : HostChar 96 := h.host 96 (by decide)
  rcases hquote with hc | hc | hc
  · cases hc
  · cases hc
  · cases hc

end Mand.Validate
