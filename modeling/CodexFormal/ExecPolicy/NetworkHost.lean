import CodexFormal.Foundation.AsciiCase
import CodexFormal.Patch.Text

/-!
# The host of a network rule

A host is normalized when its rule is added and once more when the rule is read
back from the rules file.  The second time the host that was written is taken
apart again, so a host that looks like a bracketed one or like one with a port
becomes another.
-/

set_option autoImplicit false

namespace CodexFormal.ExecPolicy

open Foundation Patch List

def isPort (port : Text) : Bool := port != [] && port.all Char.isDigit

def portedHost (host : Text) : Option Text :=
  if host.count ':' = 1 ∧ host.takeWhile (· != ':') ≠ [] ∧
      isPort ((host.dropWhile (· != ':')).drop 1) = true then
    some (host.takeWhile (· != ':'))
  else none

/-- The part of the text that is the host: what the brackets hold, or what stands before
the port. -/
def writtenHost (raw host : Text) : Except String Text :=
  match host with
  | '[' :: stripped =>
    match stripped.dropWhile (· != ']') with
    | [] => .error "network_rule host has an invalid bracketed IPv6 literal"
    | _ :: rest =>
      if rest ≠ [] ∧ (stripPrefix rest [':']).any isPort = false then
        .error ("network_rule host contains an unsupported suffix: " ++ String.ofList raw)
      else .ok (stripped.takeWhile (· != ']'))
  | host => .ok ((portedHost host).getD host)

/-- The host without its trailing dots and then without the blanks around it. -/
def bareHost (written : Text) : Text := trim (written.rdropWhile (· == '.'))

def normalizeNetworkRuleHost (raw : Text) : Except String Text :=
  let host := trim raw
  if host = [] then .error "network_rule host cannot be empty"
  else if [':', '/', '/'] <:+: host ∨ '/' ∈ host ∨ '?' ∈ host ∨ '#' ∈ host then
    .error "network_rule host must be a hostname or IP literal (without scheme or path)"
  else
    match writtenHost raw host with
    | .error error => .error error
    | .ok written =>
      let normalized := (bareHost written).map Char.toLower
      if normalized = [] then .error "network_rule host cannot be empty"
      else if '*' ∈ normalized then
        .error "network_rule host must be a specific host; wildcards are not allowed"
      else if normalized.any isWhitespace then
        .error "network_rule host cannot contain whitespace"
      else .ok normalized

/-- The host of a rule that is appended to the rules file and read back. -/
def reloadedHost (raw : Text) : Except String Text :=
  normalizeNetworkRuleHost raw >>= normalizeNetworkRuleHost

structure IsHostName (name : Text) : Prop where
  nonempty : name ≠ []
  noWildcard : '*' ∉ name
  noBlank : ∀ c ∈ name, isWhitespace c = false

def HasNoPath (host : Text) : Prop := '/' ∉ host ∧ '?' ∉ host ∧ '#' ∉ host

theorem normalizeNetworkRuleHost_eq_ok_iff (raw name : Text) :
    normalizeNetworkRuleHost raw = .ok name ↔
    trim raw ≠ [] ∧ HasNoPath (trim raw) ∧ IsHostName name ∧
    ∃ wrote, writtenHost raw (trim raw) = .ok wrote ∧ (bareHost wrote).map Char.toLower = name := by
  simp only [normalizeNetworkRuleHost]
  constructor
  · intro isOk
    split at isOk
    · cases isOk
    rename_i nonempty
    split at isOk
    · cases isOk
    rename_i plain
    simp only [not_or] at plain
    split at isOk
    · cases isOk
    rename_i wrote isWritten
    split at isOk
    · cases isOk
    rename_i named
    split at isOk
    · cases isOk
    rename_i noWildcard
    split at isOk
    · cases isOk
    rename_i noBlank
    obtain rfl := Except.ok.inj isOk
    exact ⟨nonempty, plain.2, ⟨named, noWildcard, by simpa using noBlank⟩, wrote, isWritten, rfl⟩
  · rintro ⟨nonempty, plain, host, wrote, isWritten, rfl⟩
    have noScheme : ¬ [':', '/', '/'] <:+: trim raw :=
      fun scheme => plain.1 (scheme.subset (by simp))
    have noBlank : ((bareHost wrote).map Char.toLower).any isWhitespace = false := by
      simpa only [any_eq_false, Bool.not_eq_true] using host.noBlank
    rw [if_neg nonempty, if_neg (by simp [noScheme, plain.1, plain.2.1, plain.2.2]), isWritten]
    simp only [if_neg host.nonempty, if_neg host.noWildcard, noBlank, Bool.false_eq_true, if_false]

theorem portedHost_eq_some {host candidate : Text} (ported : portedHost host = some candidate) :
    candidate.Sublist host ∧ candidate.length < host.length := by
  rw [portedHost] at ported
  split at ported
  next shape =>
    obtain rfl := Option.some.inj ported
    have split := congrArg List.length (takeWhile_append_dropWhile (p := (· != ':')) (l := host))
    have longer : host.dropWhile (· != ':') ≠ [] := by
      intro noPort
      rw [noPort] at shape
      cases shape.2.2
    have pos := length_pos_iff.2 longer
    rw [length_append] at split
    exact ⟨takeWhile_sublist _, by omega⟩
  · cases ported

theorem writtenHost_cases {raw host wrote : Text} (isWritten : writtenHost raw host = .ok wrote) :
    wrote.Sublist host ∧ (wrote.length < host.length ∨
    wrote = host ∧ host.head? ≠ some '[' ∧ portedHost host = none) := by
  rw [writtenHost.eq_def] at isWritten
  split at isWritten
  next bare =>
    have part := takeWhile_sublist (l := bare) (· != ']')
    split at isWritten
    · cases isWritten
    · split at isWritten
      · cases isWritten
      · obtain rfl := Except.ok.inj isWritten
        exact ⟨part.trans (sublist_cons_self _ _), .inl (Nat.lt_succ_of_le part.length_le)⟩
  next notBracketed =>
    obtain rfl := Except.ok.inj isWritten
    cases ported : portedHost host with
    | some candidate =>
      obtain ⟨part, short⟩ := portedHost_eq_some ported
      exact ⟨part, .inl short⟩
    | none =>
      refine ⟨List.Sublist.refl _, .inr ⟨rfl, fun bracketed => ?_, rfl⟩⟩
      obtain ⟨bare, rfl⟩ := head?_eq_some_iff.1 bracketed
      exact notBracketed bare rfl

theorem writtenHost_self (raw : Text) {host : Text} (notBracketed : host.head? ≠ some '[')
    (notPorted : portedHost host = none) : writtenHost raw host = .ok host := by
  rw [writtenHost.eq_def]
  split
  · exact absurd rfl notBracketed
  · rw [notPorted]
    rfl

theorem bareHost_sublist (written : Text) : (bareHost written).Sublist written := by
  have ends := fun (p : Char → Bool) (text : Text) =>
    IsPrefix.sublist <| rdropWhile_prefix p text
  exact (ends _ _).trans ((dropWhile_sublist _).trans (ends _ _))

theorem trim_of_noBlank {text : Text} (noBlank : ∀ c ∈ text, isWhitespace c = false) :
    trim text = text := by
  have kept : trimStart text = text := by
    rw [trimStart, dropWhile_eq_self_iff]
    intro ne
    simp [noBlank _ (getElem_mem ne)]
  rw [trim, kept, trimEnd, rdropWhile_eq_self_iff]
  intro ne
  simp [noBlank _ (getLast_mem ne)]

theorem bareHost_eq_self_iff {name : Text} (host : IsHostName name) :
    bareHost name = name ↔ name.getLast? ≠ some '.' := by
  constructor
  · intro same isDot
    obtain ⟨front, rfl⟩ := getLast?_eq_some_iff.1 isDot
    have short := (bareHost_sublist front).length_le
    rw [bareHost, rdropWhile_concat_pos _ _ _ (by rfl)] at same
    have lengths := congrArg List.length same
    rw [bareHost] at short
    simp only [length_append, length_singleton] at lengths
    omega
  · intro notDot
    rw [bareHost, rdropWhile_eq_self_iff.2, trim_of_noBlank host.noBlank]
    intro ne isDot
    exact notDot (by rw [getLast?_eq_getLast_of_ne_nil ne, beq_iff_eq.1 isDot])

variable (text : Text)

theorem map_toLower_getLast_eq {c : Char} (notLetter : c.isAlpha = false) :
    (text.map Char.toLower).getLast? = some c ↔ text.getLast? = some c := by
  simp [getLast?_map, Option.map_eq_some_iff, AsciiCase.toLower_eq_iff _ c notLetter]

theorem map_toLower_head_eq {c : Char} (notLetter : c.isAlpha = false) :
    (text.map Char.toLower).head? = some c ↔ text.head? = some c := by
  simp [head?_map, Option.map_eq_some_iff, AsciiCase.toLower_eq_iff _ c notLetter]

theorem portedHost_map_toLower :
    portedHost (text.map Char.toLower) = none ↔ portedHost text = none := by
  have colon : ∀ c : Char, c.toLower = ':' ↔ c = ':' :=
    fun c => AsciiCase.toLower_eq_iff c ':' (by decide)
  have colons : (fun c : Char => c.toLower != ':') = (· != ':') := by
    funext c
    rw [Bool.eq_iff_iff, bne_iff_ne, bne_iff_ne, Ne, colon]
  have count : (text.map Char.toLower).count ':' = text.count ':' := by
    rw [count_eq_countP, count_eq_countP, countP_map]
    congr 1
    funext c
    rw [Bool.eq_iff_iff, Function.comp_apply, beq_iff_eq, beq_iff_eq, colon]
  have parts : isPort (((text.map Char.toLower).dropWhile (· != ':')).drop 1) =
      isPort ((text.dropWhile (· != ':')).drop 1) := by
    simp only [dropWhile_map, Function.comp_def, colons, ← map_drop, isPort,
      all_map, AsciiCase.isDigit_toLower]
    cases (text.dropWhile (· != ':')).drop 1 <;> rfl
  simp only [portedHost, count, parts, takeWhile_map, Function.comp_def, colons, ne_eq,
    map_eq_nil_iff, ite_eq_right_iff, reduceCtorEq]

/-- The host that is written, without its trailing dots and the blanks around it, is not
bracketed, has no port and does not end with a dot. -/
def IsReadBack (raw : Text) : Prop :=
  ∀ written, writtenHost raw (trim raw) = .ok written →
    (bareHost written).head? ≠ some '[' ∧ portedHost (bareHost written) = none ∧
      (bareHost written).getLast? ≠ some '.'

theorem normalize_hostName_iff {name : Text} (host : IsHostName name)
    (plain : HasNoPath name) (lower : name.map Char.toLower = name) :
    normalizeNetworkRuleHost name = .ok name ↔
    name.head? ≠ some '[' ∧ portedHost name = none ∧ name.getLast? ≠ some '.' := by
  rw [normalizeNetworkRuleHost_eq_ok_iff, trim_of_noBlank host.noBlank]
  constructor
  · rintro ⟨_, _, _, written, wrote, same⟩
    have short := (bareHost_sublist written).length_le
    have lengths := congrArg List.length same
    rw [length_map] at lengths
    obtain ⟨_, cut | ⟨rfl, notBracketed, notPorted⟩⟩ := writtenHost_cases wrote
    · omega
    · have kept : bareHost written = written := (bareHost_sublist written).eq_of_length lengths
      exact ⟨notBracketed, notPorted, (bareHost_eq_self_iff host).1 kept⟩
  · rintro ⟨notBracketed, notPorted, notDot⟩
    refine ⟨host.nonempty, plain, host, name, writtenHost_self _ notBracketed notPorted, ?_⟩
    rw [(bareHost_eq_self_iff host).2 notDot, lower]

theorem notMem_normalized {raw wrote : Text} {c : Char} (notLetter : c.isAlpha = false)
    (isWritten : writtenHost raw (trim raw) = .ok wrote) (gone : c ∉ trim raw) :
    c ∉ (bareHost wrote).map Char.toLower := by
  intro mem
  obtain ⟨orig, inBare, isLower⟩ := mem_map.1 mem
  rw [AsciiCase.toLower_eq_iff orig c notLetter] at isLower
  subst isLower
  exact gone ((writtenHost_cases isWritten).1.subset ((bareHost_sublist wrote).subset inBare))

theorem normalizeNetworkRuleHost_survives_iff (raw name : Text)
    (accepted : normalizeNetworkRuleHost raw = .ok name) :
    (normalizeNetworkRuleHost name = .ok name ∧
      reloadedHost raw = normalizeNetworkRuleHost raw) ↔ IsReadBack raw := by
  have reloaded : reloadedHost raw = normalizeNetworkRuleHost name := by
    rw [reloadedHost, accepted]
    rfl
  rw [reloaded, accepted, and_self]
  obtain ⟨_, plain, hostName, written, isWritten, rfl⟩ :=
    (normalizeNetworkRuleHost_eq_ok_iff raw name).1 accepted
  have lower : ((bareHost written).map Char.toLower).map Char.toLower =
      (bareHost written).map Char.toLower := by
    rw [map_map]
    exact map_congr_left fun c _ => AsciiCase.toLower_toLower c
  rw [normalize_hostName_iff hostName ⟨notMem_normalized (by decide) isWritten plain.1,
    notMem_normalized (by decide) isWritten plain.2.1,
    notMem_normalized (by decide) isWritten plain.2.2⟩ lower]
  rw [Ne, Ne, map_toLower_head_eq _ (by decide), map_toLower_getLast_eq _ (by decide),
    portedHost_map_toLower]
  constructor
  · intro readBack other isOther
    obtain rfl := Except.ok.inj (isWritten.symm.trans isOther)
    exact readBack
  · intro readBack
    exact readBack written isWritten

theorem normalizeNetworkRuleHost_survives_example :
    normalizeNetworkRuleHost ['A', '.'] = .ok ['a'] ∧
      ((normalizeNetworkRuleHost ['a'] = .ok ['a'] ∧
        reloadedHost ['A', '.'] = normalizeNetworkRuleHost ['A', '.']) ↔
        IsReadBack ['A', '.']) :=
  ⟨rfl, normalizeNetworkRuleHost_survives_iff _ _ rfl⟩

/-- The brackets go, and what looks like a port goes with the next normalization. -/
theorem bracketed_port_does_not_survive :
    normalizeNetworkRuleHost ['[', 'a', ':', '8', ']'] = .ok ['a', ':', '8'] ∧
      normalizeNetworkRuleHost ['a', ':', '8'] = .ok ['a'] :=
  ⟨rfl, rfl⟩

end CodexFormal.ExecPolicy
