import CodexFormal.NoiseRelay.ReorderInvariant
import CodexFormal.NoiseRelay.Delivery
import CodexFormal.Patch.SeekOrder
import CodexFormal.Patch.DeltaFidelity
import CodexFormal.Patch.StreamStability
import CodexFormal.Patch.PatchSections
import CodexFormal.Patch.PreservingSplice
import CodexFormal.Patch.NormalizingSplice
import CodexFormal.TurnDiff.OrderIndependence
import CodexFormal.RemoteControl.OutboundNumbers
import CodexFormal.RemoteControl.ClientDelivery
import CodexFormal.UnifiedExec.HeadTailBuffer
import CodexFormal.StreamParser.InlineTagScan
import CodexFormal.StreamParser.Utf8Stream
import CodexFormal.StreamParser.AssistantText
import CodexFormal.Sandboxing.GrantWithinRequest
import CodexFormal.ExecPolicy.Amendment
import CodexFormal.ExecPolicy.NetworkDomains
import CodexFormal.ExecPolicy.NetworkHost
import CodexFormal.Uri.Ancestors
import CodexFormal.Permissions.AdditionalRoots
import CodexFormal.Sandboxing.PreservedDenials
import CodexFormal.LinuxSandbox.MountPlanWithinPolicy
import CodexFormal.AgentControl.Residency
import CodexFormal.History.RetainedOrder
import CodexFormal.UnifiedExec.ServerReads
import CodexFormal.ExecServer.SessionFaithful
import CodexFormal.ExecServer.StdinWrites
import CodexFormal.WorldState.MergePatch
import CodexFormal.GuardianContext.ReviewEvidence
import CodexFormal.WindowsSandbox.CommandLine
import CodexFormal.Protocol.ExecutedToolCalls
