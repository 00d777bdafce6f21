import NyanSD.Foundation.Access
import NyanSD.Wire
import NyanSD.Client
import NyanSD.Response
import NyanSD.Parsing
import NyanSD.ResponseRoundTrip
import NyanSD.AddressRoundTrip
import NyanSD.Omission
import NyanSD.QueryRoundTrip
import NyanSD.Selection
import NyanSD.Suppression
import NyanSD.Foundation.Machine
import NyanSD.Listener
import NyanSD.ArduinoClient
import NyanSD.ReceiveQueue
import NyanSD.Layout
import NyanSD.QueryBounds
import NyanSD.ResponseBounds
import NyanSD.ArduinoBounds
import NyanSD.TwoClients
import NyanSD.Registry
import NyanSD.Network
import NyanSD.LengthFields
import NyanSD.Branches
import NyanSD.Blanks
import NyanSD.LocalNetwork
import NyanSD.Skipping
import NyanSD.Framing
import NyanSD.BadSection
import NyanSD.FailedQuery
import NyanSD.Foundation.Base128
import NyanSD.PackedInt
import NyanSD.Daemon
import NyanSD.AddressText
import NyanSD.StopSignal
import NyanSD.Foundation.EraseDups
import NyanSD.Duplicates
import NyanSD.Foundation.CommandLine
import NyanSD.Sarge
import NyanSD.SargeArguments
import NyanSD.SargeRecords
import NyanSD.Foundation.TextLines
import NyanSD.Ini
import NyanSD.IniGrammar
import NyanSD.IniFile
import NyanSD.Foundation.SortedSet
import NyanSD.IniReader
import NyanSD.IniDocument
import NyanSD.Startup
import NyanSD.ServiceFiles
import NyanSD.Discovery
import NyanSD.Broadcast
import NyanSD.Broker
import NyanSD.GlobalOrder
import NyanSD.Locking
import NyanSD.Application
import NyanSD.ApplicationRuns
import NyanSD.Programs
import NyanSD.Foundation.Schedule
import NyanSD.Process
import NyanSD.Progress
