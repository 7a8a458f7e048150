import Cbuild.Lib.Shell
import Cbuild.Lib.Make
import Cbuild.Apk.Token
import Cbuild.Apk.Generate
import Cbuild.Apk.Recipe
import Cbuild.Apk.VersionOrder
import Cbuild.Apk.VersionGrammar
import Cbuild.Bulk.Walk
import Cbuild.Bulk.Run
import Cbuild.Bulk.Record
import Cbuild.Bulk.Finish
import Cbuild.Bulk.Closure
import Cbuild.Bulk.Order
import Cbuild.Bulk.BaseFirst
import Cbuild.Bulk.Flag
import Cbuild.Bulk.StatusFile
import Cbuild.Bulk.Status
import Cbuild.Build.RootLock
import Cbuild.Apk.Match
import Cbuild.Apk.Constraint
import Cbuild.Apk.Pattern
import Cbuild.Apk.Lexing
import Cbuild.Apk.Fuzzy
import Cbuild.Apk.AnyVersion
import Cbuild.Build.Source
import Cbuild.Build.VersionCache
import Cbuild.Build.ApkLock
import Cbuild.Build.Repo
import Cbuild.Build.Depends
import Cbuild.Build.Install
import Cbuild.Build.Steps
import Cbuild.Build.Terminates
import Cbuild.Build.Effects
import Cbuild.Build.Cycle
import Cbuild.Build.Recursion
import Cbuild.Build.BuildDeps
import Cbuild.Initrd.Boot
import Cbuild.Initrd.Sequence
import Cbuild.Initrd.Recovery
import Cbuild.Stage.Dependency
import Cbuild.Stage.Check
import Cbuild.Stage.Unstage
import Cbuild.Unbuilt.Buildable
import Cbuild.Unbuilt.Candidates
import Cbuild.Fetch.Download
import Cbuild.Fetch.Budget
import Cbuild.Fetch.Display
import Cbuild.Graph.Prepare
import Cbuild.Graph.CycleCheck
import Cbuild.Split.Conserved
import Cbuild.Stage.Order
import Cbuild.Resume.Build
import Cbuild.Fetch.Stream
import Cbuild.Resume.Hooks
import Cbuild.Spdx.Expression
import Cbuild.Update.VerSort
import Cbuild.Elf.Layout
import Cbuild.Elf.Scan
import Cbuild.Elf.Readable
import Cbuild.Elf.Contained
import Cbuild.Elf.Image
import Cbuild.Elf.Encoded
import Cbuild.Elf.Decoded
import Cbuild.Elf.Permuted
import Cbuild.Extract.Sources
import Cbuild.Extract.Moved
import Cbuild.Extract.Sound
import Cbuild.Repo.Summarize
import Cbuild.Repo.PruneRemoved
import Cbuild.Template.Arch
import Cbuild.Template.Upgrade
import Cbuild.Lib.Replace
import Cbuild.Template.Renamed
import Cbuild.Lib.Traverse
import Cbuild.Template.Commit
import Cbuild.Hooks.Provides
import Cbuild.Hooks.ProvidesOnce
import Cbuild.Hooks.Services
import Cbuild.Hooks.Manpages
import Cbuild.Hooks.ManpagesKept
import Cbuild.Hooks.FileModes
import Cbuild.Apk.Chown
import Cbuild.Hooks.Suid
import Cbuild.Apk.StripRules
import Cbuild.Profile.Flags
import Cbuild.Split.Cleaned
import Cbuild.Initrd.Modules
import Cbuild.Initrd.Image
import Cbuild.Resume.Stamps
import Cbuild.Fetch.Prune
import Cbuild.Stage.Clear
import Cbuild.Hooks.DepsExact
import Cbuild.Template.Relink
import Cbuild.Profile.Hardening
import Cbuild.Resume.Patch
import Cbuild.Template.Bump
import Cbuild.Repo.PrunePkgs
import Cbuild.Update.Check
import Cbuild.Build.Bootstrap
