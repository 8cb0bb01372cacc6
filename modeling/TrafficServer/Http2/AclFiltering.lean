import Mathlib.Data.List.DropRight
import TrafficServer.Proxy.MatcherUtils

/-!
# Access filters of remap rules

A filter has methods, source addresses and an action. `.definefilter` lines of `remap.config` give names
to filters, which are kept in one list with the active ones in front; a remap line gets a filter for each
active name, made anew from the stored options, and one for the options of its own. The options of a line
are its words that begin with `@`.

`BUILD_TABLE_INFO` has room for 2048 options, after as many other words, and in front of the pointer to the
list of filters. A line that writes over this pointer has the result `none`.
-/

namespace TrafficServer

open MatcherUtils

namespace Remap

/-! ### Options -/

/-- `REMAP_OPTFLG_*`; the inversion is a flag of its own in the source. -/
inductive OptFlag
  | mapWithReferer
  | plugin
  | pparam
  | method
  | srcIp (invert : Bool)
  | action
  | noNegCache
  | pristineHostHdrEnabled
  | pristineHostHdrDisabled
  | chunkingEnabled
  | chunkingDisabled
  | mapId
deriving DecidableEq

/-- `ink_string_fast_strncasecmp` with a constant and its length. -/
def beginsWith (s : Bytes) (t : String) : Bool :=
  lower (s.take (strBytes t).length) = lower (strBytes t)

/-- `check_remap_option` for one option, with what `argptr` is set to. -/
def checkRemapOption (arg : Bytes) : Option (OptFlag × Option Bytes) :=
  if caseEq arg "map_with_referer" then some (.mapWithReferer, none)
  else if beginsWith arg "plugin=" then some (.plugin, some (arg.drop 7))
  else if beginsWith arg "pparam=" then some (.pparam, some (arg.drop 7))
  else if beginsWith arg "method=" then some (.method, some (arg.drop 7))
  else if beginsWith arg "src_ip=~" then some (.srcIp true, some (arg.drop 8))
  else if beginsWith arg "src_ip=" then some (.srcIp false, some (arg.drop 7))
  else if beginsWith arg "action=" then some (.action, some (arg.drop 7))
  else if caseEq arg "no_negative_cache" then some (.noNegCache, none)
  else if caseEq arg "pristine_host_hdr=1" then some (.pristineHostHdrEnabled, none)
  else if caseEq arg "pristine_host_hdr=0" then some (.pristineHostHdrDisabled, none)
  else if caseEq arg "chunking_enabled=1" then some (.chunkingEnabled, none)
  else if caseEq arg "chunking_enabled=0" then some (.chunkingDisabled, none)
  else if beginsWith arg "mapid=" then some (.mapId, some (arg.drop 6))
  else none

def OptFlag.isFilter : OptFlag → Bool
  | .method | .srcIp _ | .action => true
  | _ => false

/-- `is_inkeylist`: underscores and dots do not count, and the key has a buffer of 512 bytes. -/
def isInkeylist (key : Bytes) (strs : List String) : Bool :=
  strs.any (caseEq ((key.filter fun c => c ≠ 95 && c ≠ 46).take 510))

def denyWords : List String := ["0", "off", "deny", "disable"]

def allowWords : List String := ["1", "on", "allow", "enable"]

/-- The methods in the order of their well-known strings, from `HTTP_WKSIDX_CONNECT`. -/
def methodNames : List String :=
  ["CONNECT", "DELETE", "GET", "HEAD", "ICP_QUERY", "OPTIONS", "POST", "PURGE", "PUT", "TRACE", "PUSH"]

def wksidxConnect : Nat := 110

example : ((HdrToken.hdrtokenStrs.drop wksidxConnect).take 11).map (·.str) = methodNames := by decide

def methodWksidx (s : Bytes) : Option Nat :=
  (methodNames.findIdx? (caseEq s)).map (wksidxConnect + ·)

/-! ### Filters -/

structure SrcIpInfo where
  start : BitVec 64
  stop : BitVec 64
  invert : Bool
deriving DecidableEq

def aclFilterMaxMethods : Nat := 16

def aclFilterMaxSrcIp : Nat := 128

def aclFilterMaxArgv : Nat := 512

/-- `acl_filter_rule`, with the link to the next one as the order of a list. -/
structure AclFilterRule where
  filterName : Bytes
  allowFlag : Bool
  methodValid : Bool
  srcIpValid : Bool
  activeQueueFlag : Bool
  argv : List Bytes
  methodArray : List Nat
  methodIdx : List Nat
  srcIpArray : List SrcIpInfo
deriving DecidableEq

def AclFilterRule.new : AclFilterRule :=
  ⟨[], true, false, false, false, [], [], List.replicate aclFilterMaxMethods 0, []⟩

def quoting (before : String) (word : Bytes) (after : String) : Bytes :=
  strBytes before ++ word ++ strBytes after

/-- A round of the loop of `validate_filter_args`, with the message of an error. -/
def validateFilterArg (rule : AclFilterRule) (arg : Bytes) :
    AclFilterRule × Option Bytes :=
  match checkRemapOption arg with
  | none => (rule, some (quoting "Unknown option - \"" arg "\""))
  | some (_, none) | some (_, some []) => (rule, some (quoting "Empty argument in \"" arg "\""))
  | some (.method, some argptr) =>
    if aclFilterMaxMethods ≤ rule.methodArray.length then
      (rule, some (strBytes "Defined more than 16 \"method=\" filters!"))
    else
      match methodWksidx argptr with
      | none => (rule, some (quoting "Unknown method \"" argptr "\""))
      | some m =>
        if m ∈ rule.methodArray then (rule, none)
        else if aclFilterMaxMethods ≤ m - wksidxConnect then
          (rule, some (strBytes s!"Incorrect method index {m - wksidxConnect}"))
        else
          ({ rule with
              methodIdx := rule.methodIdx.set (m - wksidxConnect) m
              methodArray := rule.methodArray ++ [m]
              methodValid := true }, none)
  | some (.srcIp invert, some _) =>
    if aclFilterMaxSrcIp ≤ rule.srcIpArray.length then
      (rule, some (strBytes "Defined more than 128 \"src_ip=\" filters!"))
    else
      -- the argument is not looked at
      let ipi : SrcIpInfo := ⟨0, 0, invert⟩
      if rule.srcIpArray.any fun x => x.start = ipi.start ∧ x.stop = ipi.stop then (rule, none)
      else ({ rule with srcIpArray := rule.srcIpArray ++ [ipi], srcIpValid := true }, none)
  | some (.action, some argptr) =>
    if isInkeylist argptr denyWords then ({ rule with allowFlag := false }, none)
    else if isInkeylist argptr allowWords then ({ rule with allowFlag := true }, none)
    else (rule, some (quoting "Unknown argument \"" arg "\""))
  | some _ => (rule, none)

/-- `validate_filter_args`. A rule that was there before keeps what it was given up to an error. -/
def validateFilterArgs (rule : AclFilterRule) :
    List Bytes → AclFilterRule × Option Bytes
  | [] => (rule, none)
  | arg :: rest =>
    match validateFilterArg rule arg with
    | (rule, some e) => (rule, some e)
    | (rule, none) => validateFilterArgs rule rest

namespace AclFilterRule

def hasName (name : Bytes) (rule : AclFilterRule) : Bool :=
  rule.filterName.length = name.length && lower rule.filterName = lower name

def addArgv (rule : AclFilterRule) (argv : List Bytes) : AclFilterRule :=
  { rule with argv := rule.argv ++ argv.take (aclFilterMaxArgv - rule.argv.length) }

def findByname (rules : List AclFilterRule) (name : Bytes) : Option AclFilterRule :=
  if name = [] then none else rules.find? (hasName name)

def replaceByname (rules : List AclFilterRule) (name : Bytes) (rule : AclFilterRule) :
    List AclFilterRule :=
  rules.takeWhile (fun r => !r.hasName name) ++
    rule :: (rules.dropWhile fun r => !r.hasName name).tail

def deleteByname (rules : List AclFilterRule) (name : Bytes) : List AclFilterRule :=
  if name = [] then rules else rules.eraseP (hasName name)

/-- `acl_filter_rule::requeue_in_active_list` for the rule found by its name. -/
def requeueInActiveList (rules : List AclFilterRule) (name : Bytes) (rp : AclFilterRule) :
    List AclFilterRule :=
  if rp.activeQueueFlag = false then
    let rest := rules.eraseP (hasName name)
    rest.takeWhile (·.activeQueueFlag) ++
      { rp with activeQueueFlag := true } :: rest.dropWhile (·.activeQueueFlag)
  else rules

/-- `acl_filter_rule::requeue_in_passive_list` for the rule found by its name. -/
def requeueInPassiveList (rules : List AclFilterRule) (name : Bytes) (rp : AclFilterRule) :
    List AclFilterRule :=
  if rp.activeQueueFlag then
    rules.eraseP (hasName name) ++ [{ rp with activeQueueFlag := false }]
  else rules

end AclFilterRule

open AclFilterRule

/-! ### Lines -/

def defineWords : List String := ["definefilter", "deffilter", "defflt"]

def deleteWords : List String := ["deletefilter", "delfilter", "delflt"]

def activateWords : List String := ["usefilter", "activefilter", "activatefilter", "useflt"]

def deactivateWords : List String :=
  ["unusefilter", "deactivatefilter", "unactivefilter", "deuseflt", "unuseflt"]

/-- The words of a line: `paramv` and `argv` of `BUILD_TABLE_INFO`. -/
structure Words where
  paramv : List Bytes
  argv : List Bytes

def parseDirective (rules : List AclFilterRule) (line : Words) :
    List AclFilterRule × Option Bytes :=
  match line.paramv with
  | [] => (rules, some (strBytes "Invalid argument(s)"))
  | directive :: params =>
    if directive.head? ≠ some 46 ∨ directive.tail = [] then
      (rules, some (quoting "Invalid directive \"" directive "\""))
    else if isInkeylist directive.tail defineWords then
      match params with
      | [] => (rules, some (quoting "Directive \"" directive "\" must have name argument"))
      | name :: _ =>
        if line.argv = [] then
          (rules, some (quoting "Directive \"" directive "\" must have filter parameter(s)"))
        else
          match findByname rules name with
          | none =>
            match validateFilterArgs .new line.argv with
            | (rp, none) => (rules ++ [{ rp with filterName := name }.addArgv line.argv], none)
            | (_, some e) => (rules, some e)
          | some rp =>
            match validateFilterArgs rp line.argv with
            | (rp, none) => (replaceByname rules name (rp.addArgv line.argv), none)
            | (rp, some e) => (replaceByname rules name rp, some e)
    else if isInkeylist directive.tail deleteWords then
      match params with
      | [] => (rules, some (quoting "Directive \"" directive "\" must have name argument"))
      | name :: _ => (deleteByname rules name, none)
    else if isInkeylist directive.tail activateWords then
      match params with
      | [] => (rules, some (quoting "Directive \"" directive "\" must have name argument"))
      | name :: _ =>
        match findByname rules name with
        | none =>
          (rules, some (quoting "Undefined filter \"" name "\" in directive \"" ++
            directive ++ strBytes "\""))
        | some rp => (requeueInActiveList rules name rp, none)
    else if isInkeylist directive.tail deactivateWords then
      match params with
      | [] => (rules, some (quoting "Directive \"" directive "\" must have name argument"))
      | name :: _ =>
        match findByname rules name with
        | none =>
          (rules, some (quoting "Undefined filter \"" name "\" in directive \"" ++
            directive ++ strBytes "\""))
        | some rp => (requeueInPassiveList rules name rp, none)
    else (rules, some (quoting "Unknown directive \"" directive "\""))

/-- `validate_filter_args` for a filter of a rule: it is new, and deleted after an error. -/
def makeFilter (argv : List Bytes) : Except Bytes AclFilterRule :=
  match validateFilterArgs .new argv with
  | (rule, none) => .ok rule
  | (_, some e) => .error e

/-- `process_filter_opt`: the filters of a new rule, or the message of an error. -/
def processFilterOpt (rules : List AclFilterRule) (line : Words) :
    Except Bytes (List AclFilterRule) := do
  let filters ← (rules.filter (·.activeQueueFlag)).mapM fun rp => makeFilter rp.argv
  if line.argv.any fun a => (checkRemapOption a).any (·.1.isFilter) then
    let own ← makeFilter line.argv
    .ok (filters ++ [own])
  else .ok filters

def buildTableMaxArgs : Nat := 2048

/-- A line of the file without the white space around it, split into words; `none` for a line to skip. -/
def lineWords (line : Bytes) : Option Words :=
  let text := (line.dropWhile isSpace).rdropWhile isSpace
  if text = [] ∨ text.head? = some 35 then none
  else
    let toks := tokenize " \t" text
    some ⟨toks.filter fun t => t.head? ≠ some 64,
      (toks.filter fun t => t.head? = some 64 ∧ t.tail ≠ []).map List.tail⟩

def Words.Fits (line : Words) : Prop :=
  line.argv.length ≤ buildTableMaxArgs ∧ line.paramv.length ≤ 2 * buildTableMaxArgs
deriving Decidable

def buildTableLine (rules : List AclFilterRule) (line : Bytes) : Option (List AclFilterRule) :=
  match lineWords line with
  | none => some rules
  | some words =>
    if ¬words.Fits then none
    else
      match words.paramv with
      | [] => some rules
      | p :: _ =>
        if p.head? = some 46 ∧ words.paramv.length ≤ buildTableMaxArgs then
          some (parseDirective rules words).1
        else some rules

/-- The filters of the rule of a line that comes after the lines `before`; `none` if `rules_list` was
written over. -/
def ruleFilters (before : List Bytes) (line : Words) :
    Option (Except Bytes (List AclFilterRule)) := do
  let rules ← before.foldlM buildTableLine []
  if line.Fits then some (processFilterOpt rules line) else none

/-- What `PerformACLFiltering` may read and write of `HttpTransact::State`. -/
structure TransactState where
  method : Option Nat
  clientIp : BitVec 32
  clientConnectionEnabled : Bool

/-- `UrlRewrite::PerformACLFiltering` has an empty body. -/
def performACLFiltering (s : TransactState) (_filters : List AclFilterRule) : TransactState := s

end Remap

end TrafficServer
